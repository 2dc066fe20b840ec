import Kos.RefCountProofs
import Kos.TablesProofs

/-! # What the requests do to the reference counts

    A slot of `file_desc` points to a descriptor and a descriptor to an entry
    of `inode_table`; `fd_cnt` counts the slots and `inode_cnt` the slots
    behind the descriptors, and one for the root directory.

    * `Counted` says that the counts are right and that no two entries in use
      are of one inode;
    * FS_CLOSE, FS_STAT and FS_UNLINK keep it, the transfers and FS_LSEEK have
      nothing to do with it;
    * `make_new_inode` sets the count of an entry to 1 that may be in use:
      `open_iff` is the exact condition for FS_OPEN. -/

namespace KosRequestCounts

open FlatMemory (Byte)
open BitMap (FirstClear firstClear_unique)
open RefCount
open KosFs
open KosReadWrite
open KosOpenFile
open KosUnlink (doUnlink)
open KosRequests
open KosRefusals (numberOf)
open KosInodeMap (inodeMap)
open KosTables

/-- The indices of `proc_table`. -/
abbrev Pid := Fin 37

/-! ## The counts -/

/-- The slots of the processes, the descriptors and the inodes. -/
def refs (s : Fs) : Refs (Pid × Fin NR_FILES) (Fin NR_FILE_DESC)
    (Fin NR_INODE) where
  slot x := s.fileDesc (x.1.val : Int) x.2
  count d := (s.fileDescTable d).cnt
  target d := (s.fileDescTable d).inode
  uses i := (s.inodeTable i).cnt

/-- The inode that an entry of the table is of. -/
def key (s : Fs) (i : Fin NR_INODE) : Int × Int :=
  ((s.inodeTable i).dev, (s.inodeTable i).nr)

/-- `root_inode` is a use of its entry. -/
def atRoot (s : Fs) (i : Fin NR_INODE) : Int := if i = s.rootInode then 1 else 0

/-- The reference of the root directory is one or none. -/
theorem atRoot_nonneg (s : Fs) (i : Fin NR_INODE) : 0 ≤ atRoot s i := by
  rw [atRoot]
  split <;> decide

/-- It is read from the root inode alone. -/
theorem atRoot_congr {s t : Fs} (h : t.rootInode = s.rootInode) :
    atRoot t = atRoot s := by
  unfold atRoot
  rw [h]

/-- **THE COUNTS** are right, and no inode is in two entries. -/
structure Counted (s : Fs) : Prop where
  exact : Exact (refs s) (atRoot s)
  distinct : Distinct (refs s).uses (key s)

/-- Another inode in an entry. -/
theorem refs_updInode (s : Fs) (i : Fin NR_INODE) (f : Inode → Inode) :
    refs (s.updInode i f) = { refs s with
      uses := Function.update (refs s).uses i (f (s.inodeTable i)).cnt } := by
  have huses : (refs (s.updInode i f)).uses =
      Function.update (refs s).uses i (f (s.inodeTable i)).cnt :=
    Function.comp_update Inode.cnt ..
  rw [← huses]
  rfl

/-- The keys after a change of one inode. -/
theorem key_updInode (s : Fs) (i : Fin NR_INODE) (f : Inode → Inode) :
    key (s.updInode i f) = Function.update (key s) i
      ((f (s.inodeTable i)).dev, (f (s.inodeTable i)).nr) :=
  Function.comp_update (fun q : Inode => (q.dev, q.nr)) ..

/-- The references after a change of one descriptor. -/
theorem refs_updDesc (s : Fs) (d : Fin NR_FILE_DESC) (f : FileDesc → FileDesc) :
    refs (s.updDesc d f) = { refs s with
      count := Function.update (refs s).count d (f (s.fileDescTable d)).cnt
      target := Function.update (refs s).target d
        (f (s.fileDescTable d)).inode } := by
  have hcount : (refs (s.updDesc d f)).count =
      Function.update (refs s).count d (f (s.fileDescTable d)).cnt :=
    Function.comp_update FileDesc.cnt ..
  have htarget : (refs (s.updDesc d f)).target =
      Function.update (refs s).target d (f (s.fileDescTable d)).inode :=
    Function.comp_update FileDesc.inode ..
  rw [← hcount, ← htarget]
  rfl

/-! ## What does not count -/

/-- States with the same slots, descriptors and users of inodes. -/
structure Alike (s t : Fs) : Prop where
  refs : refs t = refs s
  key : key t = key s
  root : t.rootInode = s.rootInode

section Alike

variable {s t u : Fs} {i : Fin NR_INODE}

/-- `Alike` is reflexive. -/
theorem alike_refl (s : Fs) : Alike s s := ⟨rfl, rfl, rfl⟩

/-- It is transitive. -/
theorem alike_trans (h₁ : Alike s t) (h₂ : Alike t u) : Alike s u :=
  ⟨h₂.refs.trans h₁.refs, h₂.key.trans h₁.key, h₂.root.trans h₁.root⟩

/-- And it is symmetric. -/
theorem alike_symm (h : Alike s t) : Alike t s :=
  ⟨h.refs.symm, h.key.symm, h.root.symm⟩

/-- The same tables have the same references. -/
theorem alike_same (h : SameTables s t) : Alike s t := by
  refine ⟨?_, ?_, h.root⟩
  · rw [refs, refs, h.inodes, h.descs, h.slots]
  · unfold key
    rw [h.inodes]

/-- The counts are read from the references. -/
theorem alike_counted (h : Alike s t) (hs : Counted s) : Counted t := by
  refine ⟨?_, ?_⟩
  · rw [h.refs, atRoot_congr h.root]
    exact hs.exact
  · rw [h.refs, h.key]
    exact hs.distinct

/-- The other fields of an inode. -/
theorem alike_updInode {f : Inode → Inode}
    (hf : ∀ p, (f p).cnt = p.cnt ∧ (f p).dev = p.dev ∧ (f p).nr = p.nr) :
    Alike s (s.updInode i f) := by
  obtain ⟨hcnt, hdev, hnr⟩ := hf (s.inodeTable i)
  refine ⟨?_, ?_, rfl⟩
  · have huses : Function.update (refs s).uses i (s.inodeTable i).cnt =
        (refs s).uses := Function.update_eq_self ..
    rw [refs_updInode, hcnt, huses]
  · rw [key_updInode, hdev, hnr]
    exact Function.update_eq_self ..

/-- The position of a descriptor. -/
theorem alike_updDesc {d : Fin NR_FILE_DESC} {f : FileDesc → FileDesc}
    (hf : ∀ e, (f e).cnt = e.cnt ∧ (f e).inode = e.inode) :
    Alike s (s.updDesc d f) := by
  obtain ⟨hcnt, hinode⟩ := hf (s.fileDescTable d)
  refine ⟨?_, rfl, rfl⟩
  have hcount : Function.update (refs s).count d (s.fileDescTable d).cnt =
      (refs s).count := Function.update_eq_self ..
  have htarget : Function.update (refs s).target d (s.fileDescTable d).inode =
      (refs s).target := Function.update_eq_self ..
  rw [refs_updDesc, hcnt, hinode, hcount, htarget]

/-- `O_TRUNC` changes no reference. -/
theorem alike_truncated (flags : BitVec 32) :
    Alike s (truncated flags i s) := by
  rw [truncated]
  split
  · exact alike_refl s
  · exact alike_updInode fun _ => ⟨rfl, rfl, rfl⟩

/-- Nor does the directory when it grows. -/
theorem alike_grown (free : Bool) : Alike s (s.updInode i (grown free)) := by
  refine alike_updInode fun p => ?_
  rw [grown]
  split <;> exact ⟨rfl, rfl, rfl⟩

/-- Nor does a file when it grows. -/
theorem alike_extended (d : Fin NR_FILE_DESC) : Alike s (extended i d s) := by
  rw [extended]
  split
  · exact alike_updInode fun _ => ⟨rfl, rfl, rfl⟩
  · exact alike_refl s

end Alike

/-! ## One use more -/

/-- The entry `i` has one user more, and is of the inode `k`, which no other
    entry in use is of. -/
structure Taken (s : Fs) (i : Fin NR_INODE) (k : Int × Int) (w : Fs) :
    Prop where
  new : ∀ j, j ≠ i → (refs s).uses j ≠ 0 → key s j ≠ k
  root : w.rootInode = s.rootInode
  refs : refs w = { refs s with
    uses := Function.update (refs s).uses i ((refs s).uses i + 1) }
  key : key w = Function.update (key s) i k

section Taken

variable {s t w : Fs} {i : Fin NR_INODE} {k : Int × Int} {dev nr : Int}
  {path : List Byte} {flags : BitVec 32}

/-- A count lowered on both sides. -/
theorem alike_lessUsed (h : Alike s t) :
    Alike (lessUsed i s) (lessUsed i t) := by
  have hcnt : (t.inodeTable i).cnt = (s.inodeTable i).cnt :=
    congrFun (congrArg Refs.uses h.refs) i
  have hkey : ((t.inodeTable i).dev, (t.inodeTable i).nr) =
      ((s.inodeTable i).dev, (s.inodeTable i).nr) := congrFun h.key i
  refine ⟨?_, ?_, h.root⟩
  · rw [lessUsed, lessUsed, refs_updInode, refs_updInode, h.refs]
    dsimp only
    rw [hcnt]
  · rw [lessUsed, lessUsed, key_updInode, key_updInode, h.key]
    dsimp only
    rw [hkey]

/-- What `get_file_inode` looks for. -/
theorem cached_some (h : s.cached dev nr = some i) :
    (refs s).uses i ≠ 0 ∧ key s i = (dev, nr) := by
  have hfound := List.find?_some h
  obtain ⟨hused, hdev, hnr⟩ : (s.inodeTable i).cnt ≠ 0 ∧
    (s.inodeTable i).dev = dev ∧ (s.inodeTable i).nr = nr :=
      of_decide_eq_true hfound
  exact ⟨hused, Prod.ext hdev hnr⟩

/-- An inode that is not loaded is in no slot in use. -/
theorem cached_none (h : s.cached dev nr = none) (j : Fin NR_INODE)
    (hj : (refs s).uses j ≠ 0) : key s j ≠ (dev, nr) := by
  intro hkey
  have hno := List.find?_eq_none.mp h j (List.mem_finRange j)
  exact hno (decide_eq_true ⟨hj, congrArg Prod.fst hkey, congrArg Prod.snd hkey⟩)

/-- A free inode slot is used by nobody. -/
theorem freeInode_zero (h : s.freeInode = some i) : (refs s).uses i = 0 := by
  have hfound := List.find?_some h
  exact of_decide_eq_true hfound

/-- **`get_file_inode`** takes an entry. -/
theorem taken_obtained (hs : Counted s) (h : Obtained s dev nr i w) :
    Taken s i (dev, nr) w := by
  cases h with
  | cached hc =>
      obtain ⟨hused, hkey⟩ := cached_some hc
      refine ⟨fun j hj hju hjk => hj ?_, rfl, refs_updInode .., ?_⟩
      · exact hs.distinct j i hju hused (hjk.trans hkey.symm)
      · rw [key_updInode, ← hkey]
        rfl
  | loaded sb hc hfree hsb =>
      refine ⟨fun j _ => cached_none hc j, rfl, ?_, key_updInode ..⟩
      rw [refs_updInode, freeInode_zero hfree]
      rfl

/-- **`create_file`** takes one, if the number is that of no inode in use. -/
theorem taken_created {b : Nat} (start : Int) (free : Bool)
    (hnone : s.cached (s.inodeTable s.rootInode).dev b = none)
    (hfree : s.freeInode = some i) :
    Taken s i ((s.inodeTable s.rootInode).dev, b)
      ((s.updInode i fun _ => newInode (s.inodeTable s.rootInode).dev b
        start).updInode s.rootInode (grown free)) := by
  refine ⟨fun j _ => cached_none hnone j, rfl, ?_, ?_⟩
  · rw [(alike_grown free).refs, refs_updInode, freeInode_zero hfree]
    rfl
  · rw [(alike_grown free).key, key_updInode]
    rfl

/-- A slot taken, up to the references. -/
theorem taken_alike {t : Fs} (hw : Taken s i k w) (h : Alike w t) :
    Taken s i k t :=
  ⟨hw.new, h.root.trans hw.root, h.refs.trans hw.refs, h.key.trans hw.key⟩

/-- The use is given back: only what the entry is of may have changed. -/
theorem counted_back (hs : Counted s) (hw : Taken s i k w)
    (h : Alike (lessUsed i w) t) : Counted t ∧ (refs t).slot = (refs s).slot := by
  have huses : (refs w).uses i = (refs s).uses i + 1 := by
    rw [hw.refs]
    exact Function.update_self ..
  have hrefs : refs (lessUsed i w) = refs s := by
    rw [lessUsed, refs_updInode]
    dsimp only
    rw [show (w.inodeTable i).cnt = (refs s).uses i + 1 from huses, hw.refs]
    dsimp only
    rw [Function.update_idem, Int.add_sub_cancel, Function.update_eq_self]
  have hkey : key (lessUsed i w) = Function.update (key s) i k := by
    rw [lessUsed, key_updInode, hw.key]
    dsimp only
    have hself : key w i = k := by rw [hw.key, Function.update_self]
    rw [show ((w.inodeTable i).dev, (w.inodeTable i).nr) = k from hself,
      Function.update_idem]
  refine ⟨alike_counted h ⟨?_, ?_⟩, ?_⟩
  · have hroot : (lessUsed i w).rootInode = s.rootInode := hw.root
    rw [hrefs, atRoot_congr hroot]
    exact hs.exact
  · have hnew := distinct_update hs.distinct hw.new ((refs s).uses i)
    rw [Function.update_eq_self] at hnew
    rw [hrefs, hkey]
    exact hnew
  · rw [h.refs, hrefs]

end Taken

/-! ## Requests -/

section Requests

variable {s t w : Fs} {p : Pid} {i : Fin NR_INODE} {d : Fin NR_FILE_DESC}
  {k : Fin NR_FILES} {flags : BitVec 32} {path : List Byte}

/-- A slot and a descriptor have changed. -/
theorem refs_slot {v : Option (Fin NR_FILE_DESC)} {e : FileDesc}
    (hslots : t.fileDesc = Function.update s.fileDesc (p.val : Int)
      (Function.update (s.fileDesc p.val) k v))
    (hdescs : t.fileDescTable = Function.update s.fileDescTable d e) :
    refs t = {
      slot := Function.update (refs s).slot (p, k) v
      count := Function.update (refs s).count d e.cnt
      target := Function.update (refs s).target d e.inode
      uses := (refs t).uses } := by
  have hslot : (refs t).slot = Function.update (refs s).slot (p, k) v := by
    funext ⟨q, j⟩
    rw [refs, hslots]
    dsimp only
    by_cases hq : q = p
    · rw [hq, Function.update_self]
      by_cases hj : j = k
      · rw [hj, Function.update_self, Function.update_self]
      · rw [Function.update_of_ne hj, Function.update_of_ne fun h =>
          hj (congrArg Prod.snd h)]
        rfl
    · have hne : (q.val : Int) ≠ p.val := fun h => hq (Fin.ext (by omega))
      rw [Function.update_of_ne hne, Function.update_of_ne fun h =>
        hq (congrArg Prod.fst h)]
      rfl
  have hcount : (refs t).count = Function.update (refs s).count d e.cnt := by
    rw [refs, hdescs]
    exact Function.comp_update FileDesc.cnt ..
  have htarget : (refs t).target =
      Function.update (refs s).target d e.inode := by
    rw [refs, hdescs]
    exact Function.comp_update FileDesc.inode ..
  rw [← hslot, ← hcount, ← htarget]

/-- The entry of `file_desc` and the descriptor that `do_open` takes are
    free. -/
theorem freeFd_none (h : freeFd s p.val = some k) :
    (refs s).slot (p, k) = none := by
  have hfound := List.find?_some h
  exact Option.isNone_iff_eq_none.mp hfound

/-- A free descriptor points at no inode. -/
theorem freeDesc_none (h : freeDesc s = some d) : (refs s).target d = none := by
  have hfound := List.find?_some h
  exact Option.isNone_iff_eq_none.mp hfound

/-- An entry that is taken gets a descriptor. -/
theorem counted_connect {k' : Int × Int} (hs : Counted s) (hw : Taken s i k' w)
    (hk : (refs s).slot (p, k) = none) (hd : (refs s).target d = none) :
    Counted (connect w p.val k d i flags) := by
  have hrefs : refs (connect w p.val k d i flags) =
      (refs s).point (p, k) d i := by
    rw [refs_slot (t := connect w p.val k d i flags) (s := w) rfl rfl]
    show Refs.mk _ _ _ (refs w).uses = _
    rw [hw.refs]
    rfl
  have hroot : (connect w p.val k d i flags).rootInode = s.rootInode := hw.root
  refine ⟨?_, ?_⟩
  · rw [hrefs, atRoot_congr hroot]
    exact exact_point hs.exact hk hd
  · rw [hrefs, show key (connect w p.val k d i flags) = _ from hw.key]
    exact distinct_update hs.distinct hw.new _

/-- **THE CONDITION** on FS_OPEN: a file that is created does not get the number
    of an inode in use. -/
def NumberUnused (s : Fs) (path : List Byte) (flags : BitVec 32) : Prop :=
  numberOf s path = INVALID_INODE → flags &&& O_CREAT ≠ 0 → ∀ b : Nat,
    FirstClear (inodeMap (s.disk (s.inodeTable s.rootInode).dev)) 0 4096 b →
    s.cached (s.inodeTable s.rootInode).dev b = none

/-- An entry in use that is made a new inode has one user, and its descriptors
    are more. -/
theorem not_counted_created {b : Nat} (start : Int) (free : Bool)
    (hs : Counted s) (hcached : s.cached (s.inodeTable s.rootInode).dev b = some i)
    (hk : (refs s).slot (p, k) = none) (hd : (refs s).target d = none) :
    ¬ Counted (connect (truncated flags i ((s.updInode i fun _ => newInode
      (s.inodeTable s.rootInode).dev b start).updInode s.rootInode
        (grown free))) p.val k d i flags) := by
  intro hcounted
  obtain ⟨w, hw⟩ : ∃ w, w = truncated flags i ((s.updInode i fun _ => newInode
    (s.inodeTable s.rootInode).dev b start).updInode s.rootInode
      (grown free)) := ⟨_, rfl⟩
  have halike : Alike (s.updInode i fun _ => newInode
      (s.inodeTable s.rootInode).dev b start) w := by
    rw [hw]
    exact alike_trans (alike_grown free) (alike_truncated flags)
  rw [← hw] at hcounted
  have hrefs := refs_slot (s := w) (t := connect w p.val k d i flags) rfl rfl
  rw [halike.refs, refs_updInode] at hrefs
  have hroot : (connect w p.val k d i flags).rootInode = s.rootInode :=
    halike.root
  have hexact := hcounted.exact
  rw [atRoot_congr hroot] at hexact
  have huses := (exact_iff_uses (exact_point (i := i) hs.exact hk hd)
    (by rw [hrefs]; rfl) (by rw [hrefs]; rfl) (by rw [hrefs]; rfl)).mp hexact
  have hone : (refs (connect w p.val k d i flags)).uses i = 1 := by
    show (refs w).uses i = 1
    rw [halike.refs, refs_updInode]
    exact Function.update_self ..
  have htwo : ((refs s).point (p, k) d i).uses i = (refs s).uses i + 1 :=
    Function.update_self ..
  have hused := (cached_some hcached).1
  rw [huses, htwo] at hone
  omega

/-- **`do_open`** keeps the counts if and only if the condition is met. -/
theorem open_iff {pathname : List Byte} {ret : Int} (hs : Counted s)
    (hret : ret ≠ -1) (h : doOpen p.val pathname flags s = .ok ret t) :
    Counted t ↔ NumberUnused s (pathname.takeWhile (· ≠ 0)) flags := by
  rcases doOpen_tables h with ⟨hfail, -⟩ |
    ⟨fd, d, i, w, hfd, hdesc, -, hloc, hsame⟩
  · exact absurd hfail hret
  have hk := freeFd_none hfd
  have hd := freeDesc_none hdesc
  cases hloc with
  | existing hnr hflags hobt =>
      refine iff_of_true ?_ fun hno => absurd hno hnr
      exact alike_counted (alike_same hsame) (counted_connect hs
        (taken_alike (taken_obtained hs hobt) (alike_truncated flags)) hk hd)
  | @created b start free hnr hflags hfirst hb hentry =>
      cases hcached : s.cached (s.inodeTable s.rootInode).dev b with
      | none =>
          obtain ⟨-, hfree⟩ := hentry.resolve_left fun h => by
            rw [hcached] at h
            cases h
          refine iff_of_true ?_ fun _ _ b' hb' => ?_
          · exact alike_counted (alike_same hsame) (counted_connect hs
              (taken_alike (taken_created start free hcached hfree)
                (alike_truncated flags)) hk hd)
          · rw [firstClear_unique hb' hfirst]
            exact hcached
      | some j =>
          have hj : s.cached (s.inodeTable s.rootInode).dev b = some i :=
            hentry.resolve_right fun h => by
              rw [hcached] at h
              cases h.1
          refine iff_of_false (fun ht => ?_) fun hall => ?_
          · exact not_counted_created start free hs hj hk hd
              (alike_counted (alike_symm (alike_same hsame)) ht)
          · rw [hall hnr hflags b hfirst] at hj
            cases hj

/-- A slot has been given up. -/
def gaveUp (pid : Int) (k : Fin NR_FILES) (d : Fin NR_FILE_DESC)
    (i : Fin NR_INODE) (s : Fs) : Fs :=
  { (lessUsed i s).updDesc d dropDesc with
    fileDesc := Function.update s.fileDesc pid
      (Function.update (s.fileDesc pid) k none) }

/-- Giving up a descriptor releases its slot. -/
theorem refs_gaveUp (s : Fs) (p : Pid) (k : Fin NR_FILES) (d : Fin NR_FILE_DESC)
    (i : Fin NR_INODE) :
    refs (gaveUp p.val k d i s) = (refs s).release (p, k) d i := by
  have huses := congrArg Refs.uses
    (refs_updInode s i fun p => { p with cnt := p.cnt - 1 })
  rw [refs_slot (s := s) (t := gaveUp p.val k d i s) rfl rfl,
    show (refs (gaveUp p.val k d i s)).uses = _ from huses]
  rfl

/-- The counts stay exact when a descriptor is given up. -/
theorem counted_gaveUp (hs : Counted s) (hk : (refs s).slot (p, k) = some d)
    (hd : (refs s).target d = some i) : Counted (gaveUp p.val k d i s) := by
  have hkey : key (gaveUp p.val k d i s) = key s := by
    show key (lessUsed i s) = key s
    rw [lessUsed, key_updInode]
    exact Function.update_eq_self ..
  refine ⟨?_, ?_⟩
  · rw [refs_gaveUp]
    exact exact_release hs.exact hk hd
  · rw [refs_gaveUp, hkey]
    exact distinct_change hs.exact (atRoot_nonneg s) hs.distinct hd

/-- **`do_close`** keeps the counts. -/
theorem counted_close {fd ret : Int} (hs : Counted s)
    (h : doClose p.val fd s = .ok ret t) : Counted t := by
  obtain ⟨k, d, i, hk, hd, rfl⟩ := doClose_tables h
  exact counted_gaveUp hs hk hd

/-- **`do_read_write`** and **`do_lseek`** do not touch them. -/
theorem alike_readWrite {io : Io} {fd len : Int} {reply : Int × (Nat → Byte)}
    {buf : Nat → Byte} {r : Int × (Nat → Byte)}
    (h : doReadWrite io p.val fd len reply buf s = .ok r t) : Alike s t := by
  rcases doReadWrite_tables h with rfl | ⟨d, i, -, -, hreg⟩
  · exact alike_refl s
  · obtain ⟨-, n, -, -, -, hsame, -⟩ := regular_tables rfl rfl hreg
    have hadvanced : Alike s (advanced d n s) :=
      alike_updDesc fun _ => ⟨rfl, rfl⟩
    exact alike_trans hadvanced (alike_trans (alike_extended d)
      (alike_same hsame))

/-- `lseek` changes no reference. -/
theorem alike_lseek {fd off whence ret : Int}
    (h : doLseek p.val fd off whence s = .ok ret t) : Alike s t := by
  rcases doLseek_tables h with rfl | ⟨d, i, pos, -, -, -, rfl⟩
  · exact alike_refl s
  · exact alike_updDesc fun _ => ⟨rfl, rfl⟩

/-- **`do_stat`** gives back what it takes. -/
theorem counted_stat {pathname : List Byte} {st : Stat} (hs : Counted s)
    (h : doStat pathname s = .ok (some st) t) :
    Counted t ∧ (refs t).slot = (refs s).slot := by
  obtain ⟨-, i, w, hobt, hsame⟩ := doStat_tables h
  exact counted_back hs (taken_obtained hs hobt) (alike_same hsame)

/-- Nobody has a descriptor of the file. -/
def Unopened (s : Fs) (path : List Byte) : Prop :=
  ∀ d i, (s.fileDescTable d).inode = some i →
    key s i ≠ ((s.inodeTable s.rootInode).dev, numberOf s path)

/-- **`do_unlink`** too, and what it removes is not open. -/
theorem counted_unlink {pathname : List Byte} {ret : Int} (hs : Counted s)
    (hret : ret ≠ -1) (h : doUnlink pathname s = .ok ret t) :
    (Counted t ∧ (refs t).slot = (refs s).slot) ∧
      Unopened s (pathname.takeWhile (· ≠ 0)) := by
  obtain ⟨-, i, w, size, hobt, hcnt, hsame⟩ :=
    (doUnlink_tables h).resolve_left hret
  have hw := taken_obtained hs hobt
  have hemptied : Alike w (w.updInode i emptied) :=
    alike_updInode fun _ => ⟨rfl, rfl, rfl⟩
  have hsized : Alike (lessUsed i (w.updInode i emptied))
      (sized s.rootInode size (lessUsed i (w.updInode i emptied))) :=
    alike_updInode fun _ => ⟨rfl, rfl, rfl⟩
  have hleft := alike_trans (alike_lessUsed (i := i) hemptied) hsized
  refine ⟨counted_back hs hw (alike_trans hleft (alike_same hsame)),
    fun d j hd hkey => ?_⟩
  have hused := exact_used hs.exact (atRoot_nonneg s) hd
  by_cases hj : j = i
  · -- its entry would have a user besides FS
    have htwo : (w.inodeTable i).cnt = (refs s).uses i + 1 := by
      show (refs w).uses i = _
      rw [hw.refs]
      exact Function.update_self ..
    rw [hj] at hused
    omega
  · exact hw.new j hj (by omega) hkey

end Requests

end KosRequestCounts
