import Kos.ReferenceCountsProofs
import Kos.TraceRefinementProofs

/-! # The file system as a store

    What the file system is for, without disks and tables of inodes: names have
    numbers, numbers have sizes and bytes, and processes have open files.

    * `Store` and its operations; an open file is there as long as a slot of a
      process is for it (`keep`);
    * `Serves` are the requests that are served, the forks and exits of
      processes, and a new start of the machine;
    * a byte of a file is what it was, unless the request is a write to it
      (`bytes_step`). -/

namespace KosFileStore

open FlatMemory (Byte)
open Overlay
open TraceRefinement
open KosFs
open KosFileNames
open KosReadWrite
open KosOpenFile
open KosRequests
open KosRequestCounts (Pid)

/-! ## The store -/

/-- A number that is open, the position in it and the flags. -/
structure Opened where
  nr : Nat
  pos : Nat
  mode : BitVec 32

/-- The indices of the processes, with those of their files. -/
abbrev FileSlot := Pid × Fin NR_FILES

/-- A store of files: names, sizes, bytes, and the files that are open. -/
structure Store where
  live : Finset Nat
  files : List Byte → Option Nat
  size : Nat → Nat
  bytes : Nat → Nat → Byte
  slots : FileSlot → Option (Fin NR_FILE_DESC)
  opened : Fin NR_FILE_DESC → Option Opened

/-- The bytes of the sectors of a file. -/
def FILE_BYTES : Nat := SECTOR_SIZE * NR_FILE_SECTS

/-- The number that a path stands for; that of `/` is 1. -/
def Store.numberOf (a : Store) (path : List Byte) : Option Nat :=
  match getFileName path with
  | none => none
  | some [] => some 1
  | some name => a.files name

/-- An empty file; `g` is what its bytes are before they are written. -/
def Store.create (a : Store) (name : List Byte) (n : Nat) (g : Nat → Byte) :
    Store :=
  { a with
    live := insert n a.live
    files := Function.update a.files name (some n)
    size := Function.update a.size n 0
    bytes := Function.update a.bytes n g }

/-- The name goes, and with it the number. -/
def Store.remove (a : Store) (name : List Byte) (n : Nat) : Store :=
  { a with
    live := a.live.erase n
    files := Function.update a.files name none }

/-- What O_TRUNC does. -/
def Store.truncate (a : Store) (flags : BitVec 32) (n : Nat) : Store :=
  if flags &&& O_TRUNC = 0 then a
  else { a with size := Function.update a.size n 0 }

/-- The `len` bytes from `pos` on are those of `buf`. -/
def Store.write (a : Store) (n pos len : Nat) (buf : Nat → Byte) : Store :=
  { a with
    size := Function.update a.size n (max (a.size n) (pos + len))
    bytes := Function.update a.bytes n (put (a.bytes n) pos len buf) }

/-- A slot gets an open file of its own. -/
def Store.attach (a : Store) (x : FileSlot) (d : Fin NR_FILE_DESC) (o : Opened) :
    Store :=
  { a with
    slots := Function.update a.slots x (some d)
    opened := Function.update a.opened d (some o) }

/-- An open file has another position. -/
def Store.move (a : Store) (d : Fin NR_FILE_DESC) (o : Opened) (pos : Nat) :
    Store :=
  { a with opened := Function.update a.opened d (some { o with pos := pos }) }

/-- The slots are others now, and what no slot is for is not open any more. -/
def Store.keep (a : Store) (f : FileSlot → Option (Fin NR_FILE_DESC)) : Store :=
  { a with
    slots := f
    opened := fun d => if ∃ x, f x = some d then a.opened d else none }

section Store

variable (a : Store) (name : List Byte) (n pos len : Nat) (flags : BitVec 32)
  (buf g : Nat → Byte) (x : FileSlot) (d : Fin NR_FILE_DESC) (o : Opened)
  (f : FileSlot → Option (Fin NR_FILE_DESC)) (j : Nat)

@[simp] theorem create_live : (a.create name n g).live = insert n a.live := rfl
@[simp] theorem create_files : (a.create name n g).files =
    Function.update a.files name (some n) := rfl
@[simp] theorem create_size : (a.create name n g).size j =
    if j = n then 0 else a.size j := Function.update_apply ..
@[simp] theorem create_bytes : (a.create name n g).bytes j =
    if j = n then g else a.bytes j := Function.update_apply ..
@[simp] theorem create_slots : (a.create name n g).slots = a.slots := rfl
@[simp] theorem create_opened : (a.create name n g).opened = a.opened := rfl

@[simp] theorem truncate_live : (a.truncate flags n).live = a.live := by
  rw [Store.truncate]
  split <;> rfl
@[simp] theorem truncate_files : (a.truncate flags n).files = a.files := by
  rw [Store.truncate]
  split <;> rfl
@[simp] theorem truncate_size : (a.truncate flags n).size j =
    if flags &&& O_TRUNC ≠ 0 ∧ j = n then 0 else a.size j := by
  rw [Store.truncate]
  by_cases hflags : flags &&& O_TRUNC = 0
  · rw [if_pos hflags, if_neg fun h => h.1 hflags]
  · rw [if_neg hflags]
    exact (Function.update_apply ..).trans
      (if_congr (and_iff_right hflags).symm rfl rfl)
@[simp] theorem truncate_bytes : (a.truncate flags n).bytes = a.bytes := by
  rw [Store.truncate]
  split <;> rfl
@[simp] theorem truncate_slots : (a.truncate flags n).slots = a.slots := by
  rw [Store.truncate]
  split <;> rfl
@[simp] theorem truncate_opened : (a.truncate flags n).opened = a.opened := by
  rw [Store.truncate]
  split <;> rfl

@[simp] theorem write_size : (a.write n pos len buf).size j =
    if j = n then max (a.size n) (pos + len) else a.size j := Function.update_apply ..
@[simp] theorem write_bytes : (a.write n pos len buf).bytes j =
    if j = n then put (a.bytes n) pos len buf else a.bytes j :=
  Function.update_apply ..

end Store

/-! ## What is done -/

/-- What a process gets back. -/
structure Reply where
  ret : Int
  bytes : Nat → Byte := fun _ => 0
  stat : Option Stat := none

/-- A request with its reply, and what happens between requests. -/
inductive Label where
  | request (p : Pid) (req : Request) (reply : Reply)
  | fork (parent child : Pid)
  | exit (p : Pid)
  | restart

/-- Where FS_LSEEK moves to. -/
def seekTo (whence : Int) (pos size : Nat) (off : Int) : Option Int :=
  if whence = SEEK_SET then some off
  else if whence = SEEK_CUR then some (pos + off)
  else if whence = SEEK_END then some (size + off)
  else none

/-- The open file behind a slot. -/
def Store.Has (a : Store) (x : FileSlot) (d : Fin NR_FILE_DESC) (o : Opened) : Prop :=
  a.slots x = some d ∧ a.opened d = some o

/-- **THE STORE SERVES** requests. -/
inductive Serves : Store → Label → Store → Prop where
  /-- The path stands for a number. -/
  | opens {a : Store} {p : Pid} {pathname : List Byte} {flags : BitVec 32}
      {fd : Fin NR_FILES} {d : Fin NR_FILE_DESC} {n : Nat}
      (hn : a.numberOf (pathname.takeWhile (· ≠ 0)) = some n)
      (hslot : a.slots (p, fd) = none) (hd : a.opened d = none) :
      Serves a (.request p (.open pathname flags) { ret := fd.val })
        ((a.truncate flags n).attach (p, fd) d ⟨n, 0, flags⟩)
  /-- The name gets a number that is not in use. -/
  | creates {a : Store} {p : Pid} {pathname name : List Byte} {flags : BitVec 32}
      {fd : Fin NR_FILES} {d : Fin NR_FILE_DESC} {n : Nat} {g : Nat → Byte}
      (hno : a.numberOf (pathname.takeWhile (· ≠ 0)) = none)
      (hname : getFileName (pathname.takeWhile (· ≠ 0)) = some name)
      (hflags : flags &&& O_CREAT ≠ 0) (hn : n ∉ a.live)
      (hslot : a.slots (p, fd) = none) (hd : a.opened d = none) :
      Serves a (.request p (.open pathname flags) { ret := fd.val })
        ((a.create name n g).attach (p, fd) d ⟨n, 0, flags⟩)
  | closes {a : Store} {p : Pid} {fd : Fin NR_FILES} {d : Fin NR_FILE_DESC}
      (hd : a.slots (p, fd) = some d) :
      Serves a (.request p (.close fd.val) { ret := 0 })
        (a.keep (Function.update a.slots (p, fd) none))
  | seeks {a : Store} {p : Pid} {fd : Fin NR_FILES} {off whence : Int}
      {d : Fin NR_FILE_DESC} {o : Opened} {pos : Nat} (h : a.Has (p, fd) d o)
      (hpos : seekTo whence o.pos (a.size o.nr) off = some (pos : Int))
      (hle : pos ≤ a.size o.nr) :
      Serves a (.request p (.lseek fd.val off whence) { ret := pos })
        (a.move d o pos)
  /-- A read inside the file. -/
  | reads {a : Store} {p : Pid} {fd : Fin NR_FILES} {len : Nat}
      {reply : Int × (Nat → Byte)} {buf : Nat → Byte} {d : Fin NR_FILE_DESC}
      {o : Opened} (h : a.Has (p, fd) d o) (hmode : o.mode &&& O_RDWR ≠ 0)
      (hend : o.pos + len ≤ a.size o.nr) :
      Serves a (.request p (.readWrite .read fd.val len reply buf) {
          ret := len
          bytes := put buf 0 len (drop (a.bytes o.nr) o.pos) })
        (a.move d o (o.pos + len))
  /-- A write inside the sectors of the file. -/
  | writes {a : Store} {p : Pid} {fd : Fin NR_FILES} {len : Nat}
      {reply : Int × (Nat → Byte)} {buf : Nat → Byte} {d : Fin NR_FILE_DESC}
      {o : Opened} (h : a.Has (p, fd) d o) (hmode : o.mode &&& O_RDWR ≠ 0)
      (hend : o.pos + len ≤ FILE_BYTES) :
      Serves a (.request p (.readWrite .write fd.val len reply buf) {
          ret := len
          bytes := buf })
        ((a.write o.nr o.pos len buf).move d o (o.pos + len))
  /-- A file that was not opened for it is neither read nor written. -/
  | refuses {a : Store} {p : Pid} {io : Io} {fd : Fin NR_FILES} {len : Int}
      {reply : Int × (Nat → Byte)} {buf : Nat → Byte} {d : Fin NR_FILE_DESC}
      {o : Opened} (h : a.Has (p, fd) d o) (hmode : o.mode &&& O_RDWR = 0) :
      Serves a (.request p (.readWrite io fd.val len reply buf) {
        ret := 0
        bytes := buf }) a
  /-- A file that nobody has open. -/
  | removes {a : Store} {p : Pid} {pathname name : List Byte} {n : Nat}
      (hname : getFileName (pathname.takeWhile (· ≠ 0)) = some name)
      (hn : a.files name = some n)
      (hclosed : ∀ d o, a.opened d = some o → o.nr ≠ n) :
      Serves a (.request p (.unlink pathname) { ret := 0 }) (a.remove name n)
  | stats {a : Store} {p : Pid} {pathname : List Byte} {n : Nat} {st : Stat}
      (hn : a.numberOf (pathname.takeWhile (· ≠ 0)) = some n)
      (hnr : st.inodeNr = n)
      (hsize : st.fileMode = TYPE_REGULAR → st.fileSize.toNat = a.size n) :
      Serves a (.request p (.stat pathname) {
        ret := 0
        stat := some st }) a
  /-- The child has the open files of its parent. -/
  | forks {a : Store} {parent child : Pid}
      (hchild : ∀ k, a.slots (child, k) = none) :
      Serves a (.fork parent child)
        (a.keep fun x => if x.1 = child then a.slots (parent, x.2) else a.slots x)
  | exits {a : Store} {p : Pid} :
      Serves a (.exit p) (a.keep fun x => if x.1 = p then none else a.slots x)
  /-- The names, the sizes and the bytes are what they were. -/
  | restarts {a : Store} : Serves a .restart (a.keep fun _ => none)

/-! ## What the requests keep -/

/-- No file is larger than its sectors. -/
def Store.Small (a : Store) : Prop := ∀ n, a.size n ≤ FILE_BYTES

/-- **A STEP** keeps the sizes in bounds. -/
theorem small_step {a b : Store} {l : Label} (h : Serves a l b) (ha : a.Small) :
    b.Small := by
  intro j
  cases h with
  | @opens p pathname flags fd d n hn hslot hd =>
      show (a.truncate flags n).size j ≤ _
      rw [truncate_size]
      split
      · exact Nat.zero_le _
      · exact ha j
  | @creates p pathname name flags fd d n g hno hname hflags hn hslot hd =>
      show (a.create name n g).size j ≤ _
      rw [create_size]
      split
      · exact Nat.zero_le _
      · exact ha j
  | @writes p fd len reply buf d o h hmode hend =>
      show (a.write o.nr o.pos len buf).size j ≤ _
      rw [write_size]
      split
      · exact Nat.max_le.mpr ⟨ha _, hend⟩
      · exact ha j
  | _ => exact ha j

section Transfers

variable {a b : Store} {p : Pid} {fd len : Int} {n x : Nat} {l : Label}
  {answer : Int × (Nat → Byte)} {buf : Nat → Byte} {reply : Reply}

/-- A read is of an open file. -/
theorem served_read
    (h : Serves a (.request p (.readWrite .read fd len answer buf) reply) b) :
    ∃ slot d o, fd = slot.val ∧ a.Has (p, slot) d o ∧
      (o.mode &&& O_RDWR = 0 ∧ reply.ret = 0 ∨
        reply.bytes = put buf 0 len.toNat (drop (a.bytes o.nr) o.pos)) := by
  cases h with
  | reads h hmode hend => exact ⟨_, _, _, rfl, h, Or.inr rfl⟩
  | refuses h hmode => exact ⟨_, _, _, rfl, h, Or.inl ⟨hmode, rfl⟩⟩

/-- A write is to an open file. -/
theorem served_write
    (h : Serves a (.request p (.readWrite .write fd len answer buf) reply) b) :
    ∃ slot d o, fd = slot.val ∧ a.Has (p, slot) d o ∧
      (o.mode &&& O_RDWR = 0 ∧ reply.ret = 0 ∨
        b.live = a.live ∧ b.bytes =
          (a.write o.nr o.pos len.toNat buf).bytes) := by
  cases h with
  | writes h hmode hend => exact ⟨_, _, _, rfl, h, Or.inr ⟨rfl, rfl⟩⟩
  | refuses h hmode => exact ⟨_, _, _, rfl, h, Or.inl ⟨hmode, rfl⟩⟩

/-- What is done writes to byte `x` of the file. -/
def Store.Overwrites (a : Store) (n x : Nat) : Label → Prop
  | .request p (.readWrite .write fd len _ _) _ =>
      ∃ slot d o, fd = slot.val ∧ a.Has (p, slot) d o ∧ o.nr = n ∧
        o.mode &&& O_RDWR ≠ 0 ∧ (o.pos : Int) ≤ x ∧ (x : Int) < o.pos + len
  | _ => False

/-- **A STEP** leaves a byte of a file as it is, unless it writes to it. -/
theorem bytes_step (h : Serves a l b) (hn : n ∈ a.live)
    (hno : ¬ a.Overwrites n x l) : b.bytes n x = a.bytes n x := by
  cases h with
  | @opens p pathname flags fd d m hm hslot hd =>
      exact congrFun (congrFun (truncate_bytes a m flags) n) x
  | @creates p pathname name flags fd d m g hfree hname hflags hm hslot hd =>
      refine congrFun ((create_bytes a name m g n).trans (if_neg ?_)) x
      rintro rfl
      exact hm hn
  | @writes p fd len reply buf d o h hmode hend =>
      refine (congrFun (write_bytes a o.nr o.pos len buf n) x).trans ?_
      split
      · rename_i hnr
        rw [hnr]
        refine put_of_out ?_
        by_contra hin
        exact hno ⟨fd, d, o, rfl, h, hnr.symm, hmode, by omega, by omega⟩
      · rfl
  | _ => rfl

end Transfers

end KosFileStore
