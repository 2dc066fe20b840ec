import Kos.UnlinkProofs

/-! # The requests to the file system

    `do_stat`, `do_close` and the `switch` of `task_fs`, over the functions of
    the other modules.  `events` are the requests that a run serves, up to the
    first that does not return, which is `stopsAt`. -/

namespace KosRequests

open FlatMemory (Byte)
open KosFs
open KosFileNames
open KosReadWrite (Io fdSlot doReadWrite doLseek)
open KosOpenFile (doOpen)
open KosUnlink (doUnlink)

/-- The type of a drive. -/
def TYPE_SPECIAL_BLOCK : BitVec 32 := 0x6000

/-! ## `do_stat` and `do_close` -/

/-- `is_special`. -/
def isSpecial (fileType : BitVec 32) : Bool :=
  fileType &&& TYPE_MASK = TYPE_SPECIAL_BLOCK ∨
    fileType &&& TYPE_MASK = TYPE_SPECIAL_CHAR

/-- `struct stat`. -/
structure Stat where
  devNr : Int
  inodeNr : Int
  fileMode : BitVec 32
  devNrS : BitVec 32
  fileSize : BitVec 32
  deriving DecidableEq

/-- What `do_stat` fills in. -/
def statOf (p : Inode) : Stat where
  devNr := p.dev
  inodeNr := p.nr
  fileMode := p.fileType
  devNrS := if isSpecial p.fileType then p.sectStart
    else BitVec.ofInt 32 NR_MAJOR_NO_DEV
  fileSize := p.fileSize

/-- `do_stat`, with the characters that were copied from PATHNAME: what is
    copied to BUF, or `none` where it returns -1. -/
def doStat (pathname : List Byte) : FsM (Option Stat) := do
  check (pathname.length < MAX_PATH)
  let path := pathname.takeWhile (· ≠ 0)
  let nr ← getFileInodeNr path
  if nr = INVALID_INODE then pure none
  else
    match getFileName path with
    | none => pure none
    | some _ => do
        let s ← get
        let p ← getFileInode (s.inodeTable s.rootInode).dev nr
        match p with
        | none => throw .fault
        | some i => do
            let s ← get
            putInode i
            pure (some (statOf (s.inodeTable i)))

/-- `--fd_cnt`; without users the descriptor is free. -/
def dropDesc (f : FileDesc) : FileDesc :=
  { f with cnt := f.cnt - 1, inode := if f.cnt - 1 = 0 then none else f.inode }

/-- `do_close`. -/
def doClose (pid fd : Int) : FsM Int := do
  let k ← fdSlot fd
  let s ← get
  match s.fileDesc pid k with
  | none => throw .fault
  | some d =>
      match (s.fileDescTable d).inode with
      | none => throw .fault
      | some i => do
          putInode i
          modify fun s => s.updDesc d dropDesc
          modify fun s => { s with
            fileDesc := Function.update s.fileDesc pid
              (Function.update (s.fileDesc pid) k none) }
          pure 0

/-! ## The requests -/

/-- The messages of processes, with the characters at PATHNAME, and for
    FS_READ and FS_WRITE the answer of TTY and the memory at BUF. -/
inductive Request where
  | open (pathname : List Byte) (flags : BitVec 32)
  | close (fd : Int)
  | lseek (fd off whence : Int)
  | readWrite (io : Io) (fd len : Int) (reply : Int × (Nat → Byte))
      (buf : Nat → Byte)
  | unlink (pathname : List Byte)
  | stat (pathname : List Byte)

/-- The handler of a request and what it returns. -/
def handle (pid : Int) : Request → FsM Int
  | .open pathname flags => doOpen pid pathname flags
  | .close fd => doClose pid fd
  | .lseek fd off whence => doLseek pid fd off whence
  | .readWrite io fd len reply buf => do
      let r ← doReadWrite io pid fd len reply buf
      pure r.1
  | .unlink pathname => doUnlink pathname
  | .stat pathname => do
      let r ← doStat pathname
      pure (if r.isSome then 0 else -1)

/-- What a function returns and the state it leaves, if it does. -/
def outcome {α : Type} : EStateM.Result KosKernel.Halt Fs α → Option (α × Fs)
  | .ok a s => some (a, s)
  | .error _ _ => none

theorem outcome_eq_some {α : Type} {r : EStateM.Result KosKernel.Halt Fs α}
    {p : α × Fs} : outcome r = some p ↔ r = .ok p.1 p.2 := by
  cases r with
  | ok a s =>
      rw [outcome, Option.some.injEq]
      constructor
      · rintro rfl
        rfl
      · intro h
        cases h
        rfl
  | error e s =>
      constructor <;> intro h <;> cases h

/-- A request that was served. -/
structure Event where
  pid : Int
  req : Request
  before : Fs
  ret : Int
  after : Fs

/-- The requests that are served from `s` on. -/
def events : Fs → List (Int × Request) → List Event
  | _, [] => []
  | s, (pid, req) :: rest =>
      match handle pid req s with
      | .ok ret t => ⟨pid, req, s, ret, t⟩ :: events t rest
      | .error _ _ => []

theorem events_head {pid ret : Int} {req : Request} {s t : Fs}
    (h : handle pid req s = .ok ret t) (rest : List (Int × Request)) :
    ⟨pid, req, s, ret, t⟩ ∈ events s ((pid, req) :: rest) := by
  rw [events, h]
  exact List.mem_cons_self

/-- What holds of every request a handler serves holds all along a run. -/
theorem events_all {P : Event → Prop}
    (h : ∀ pid req s ret t, handle pid req s = .ok ret t →
      P ⟨pid, req, s, ret, t⟩) (rs : List (Int × Request)) :
    ∀ s, ∀ e ∈ events s rs, P e := by
  induction rs with
  | nil =>
      intro s e he
      cases he
  | cons r rest ih =>
      intro s e he
      obtain ⟨pid, req⟩ := r
      rw [events] at he
      cases hrun : handle pid req s with
      | error _ _ =>
          rw [hrun] at he
          cases he
      | ok ret t =>
          rw [hrun] at he
          rcases List.mem_cons.mp he with rfl | hmem
          · exact h pid req s ret t hrun
          · exact ih t e hmem

/-- The state after a run in which every request returns. -/
def served : Fs → List (Int × Request) → Option Fs
  | s, [] => some s
  | s, (pid, req) :: rest =>
      match handle pid req s with
      | .ok _ t => served t rest
      | .error _ _ => none

theorem served_cons {s t : Fs} {pid : Int} {req : Request}
    {rest : List (Int × Request)} :
    served s ((pid, req) :: rest) = some t ↔
      ∃ ret u, handle pid req s = .ok ret u ∧ served u rest = some t := by
  rw [served]
  cases hrun : handle pid req s with
  | ok ret u =>
      constructor
      · exact fun h => ⟨ret, u, rfl, h⟩
      · rintro ⟨_, _, hok, h⟩
        cases hok
        exact h
  | error e u =>
      constructor
      · intro h
        cases h
      · rintro ⟨_, _, hok, -⟩
        cases hok

end KosRequests
