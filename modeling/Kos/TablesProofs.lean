import Kos.DescriptorProofs
import Kos.InodeMapProofs
import Kos.FrameRuleProofs

/-! # What the requests do to the tables

    Most functions of the file system leave `inode_table`, `file_desc_table`,
    `file_desc` and `root_inode` as they are: they move sectors.

    * `Keeps` says so of a function; there is a rule for each kind of step;
    * the functions that change the tables are described by what they do to
      them, whatever is on the disk (`doOpen_tables`, `regular_tables`,
      `doUnlink_tables`). -/

namespace KosTables

open FlatMemory (Byte)
open KosFs
open KosFileNames
open KosReadWrite
open KosOpenFile
open KosSectorMap
open KosUnlink
open KosRequests
open KosInodeMap (inodeMap)
open KosDescriptor (slotOf Behind fdSlot_cases)
open KosRefusals (run_map createFile_null seekPos_state numberOf
  getFileInodeNr_number)
open BitMap (FirstClear)
open FrameRule

/-- The tables are as they were. -/
structure SameTables (s t : Fs) : Prop where
  inodes : t.inodeTable = s.inodeTable
  supers : t.superBlockTable = s.superBlockTable
  descs : t.fileDescTable = s.fileDescTable
  slots : t.fileDesc = s.fileDesc
  root : t.rootInode = s.rootInode

theorem same_refl (s : Fs) : SameTables s s := ⟨rfl, rfl, rfl, rfl, rfl⟩

/-- The tables stay through two steps. -/
theorem same_trans {s t u : Fs} (h₁ : SameTables s t) (h₂ : SameTables t u) :
    SameTables s u :=
  ⟨h₂.inodes.trans h₁.inodes, h₂.supers.trans h₁.supers,
    h₂.descs.trans h₁.descs, h₂.slots.trans h₁.slots, h₂.root.trans h₁.root⟩

/-- Updates of an inode keep states with the same tables together. -/
theorem same_updInode {s t : Fs} (h : SameTables s t) (i : Fin NR_INODE)
    (f : Inode → Inode) : SameTables (s.updInode i f) (t.updInode i f) := by
  refine ⟨?_, h.supers, h.descs, h.slots, h.root⟩
  rw [Fs.updInode, Fs.updInode, h.inodes]

/-- The same change of a descriptor on both sides. -/
theorem same_updDesc {s t : Fs} (h : SameTables s t) (d : Fin NR_FILE_DESC)
    (f : FileDesc → FileDesc) : SameTables (s.updDesc d f) (t.updDesc d f) := by
  refine ⟨h.inodes, h.supers, ?_, h.slots, h.root⟩
  rw [Fs.updDesc, Fs.updDesc, h.descs]

instance : IsPreorder Fs SameTables where
  refl := same_refl
  trans _ _ _ := same_trans

/-! ## Functions that leave them alone -/

section Keeps

/-- An assertion leaves the tables alone. -/
theorem keeps_check {c : Prop} [Decidable c] : Keeps SameTables (check c) :=
  keeps_ite (fun _ => keeps_pure _) fun _ => keeps_throw _

/-- So does a read of sectors. -/
theorem keeps_rdSects (dev n : Int) (count : Nat) :
    Keeps SameTables (rdSects dev n count) := by
  intro s a t h
  obtain ⟨-, rfl⟩ := run_rdSects.mp h
  exact ⟨rfl, rfl, rfl, rfl, rfl⟩

/-- So does a write. -/
theorem keeps_wrSects (dev n : Int) (count : Nat) :
    Keeps SameTables (wrSects dev n count) := by
  intro s a t h
  obtain ⟨-, rfl⟩ := run_wrSects.mp h
  exact ⟨rfl, rfl, rfl, rfl, rfl⟩

/-- And so does the buffer. -/
theorem keeps_setBuf (g : (Nat → Byte) → Nat → Byte) :
    Keeps SameTables (setBuf g) := by
  intro s a t h
  obtain rfl := run_setBuf.mp h
  exact ⟨rfl, rfl, rfl, rfl, rfl⟩

/-- `get_super_block` does. -/
theorem keeps_getSuperBlock (dev : Int) : Keeps SameTables (getSuperBlock dev) := by
  intro s a t h
  rw [← (run_getSuperBlock.mp h).2]
  exact same_refl s

/-- `write_inode` does. -/
theorem keeps_writeInode (i : Fin NR_INODE) : Keeps SameTables (writeInode i) := by
  intro s a t h
  obtain ⟨sb, -, -, rfl⟩ := run_writeInode.mp h
  exact ⟨rfl, rfl, rfl, rfl, rfl⟩

end Keeps

/-! ### The directory and the maps -/

section Sources

variable {name : List Byte} {dev nr n : Int}

/-- `alloc_inode_map_bit` does. -/
theorem keeps_allocInodeMapBit : Keeps SameTables (allocInodeMapBit dev) := by
  refine keeps_bind (keeps_getSuperBlock _) fun sb => ?_
  refine keeps_ite (fun _ => keeps_throw _) fun _ => ?_
  refine keeps_bind (keeps_rdSects _ _ _) fun _ => keeps_get fun s => ?_
  cases openByte s.fsbuf 512 0 with
  | none => exact keeps_pure _
  | some j =>
      exact keeps_bind (keeps_setBuf _) fun _ =>
        keeps_bind (keeps_wrSects _ _ _) fun _ => keeps_pure _

theorem keeps_markBits (j : Nat) : ∀ left k n,
    Keeps SameTables (markBits j left k n) := by
  intro left
  induction left with
  | zero => exact fun k n => keeps_pure n
  | succ left ih =>
      intro k n
      refine keeps_bind ?_ fun _ =>
        keeps_ite (fun _ => keeps_pure _) fun _ => ih _ _
      exact keeps_get fun s => keeps_bind keeps_check fun _ => keeps_setBuf _

theorem keeps_intAdd (a b : Int) : Keeps SameTables (intAdd a b) :=
  keeps_ite (fun _ => keeps_pure _) fun _ => keeps_throw _

theorem keeps_allocBytes (sb : SuperBlock) (i : Nat) :
    ∀ left j alloc n, Keeps SameTables (allocBytes sb i left j alloc n) := by
  intro left
  induction left with
  | zero => exact fun j alloc n => keeps_pure _
  | succ left ih =>
      intro j alloc n
      refine keeps_ite (fun _ => keeps_bind ?_ fun r => ih _ _ _)
        fun _ => keeps_pure _
      refine keeps_ite (fun _ => ?_) fun _ => keeps_get fun s => ?_
      · exact keeps_bind (keeps_markBits _ _ _ _) fun _ => keeps_pure _
      · refine keeps_ite (fun _ => keeps_pure _) fun _ => ?_
        exact keeps_bind (keeps_intAdd _ _) fun _ =>
          keeps_bind (keeps_markBits _ _ _ _) fun _ => keeps_pure _

theorem keeps_allocSects (sb : SuperBlock) :
    ∀ left i alloc n, Keeps SameTables (allocSects sb dev left i alloc n) := by
  intro left
  induction left with
  | zero => exact fun i alloc n => keeps_pure _
  | succ left ih =>
      intro i alloc n
      refine keeps_bind (keeps_rdSects _ _ _) fun _ => ?_
      refine keeps_bind (keeps_allocBytes _ _ _ _ _ _) fun r => ?_
      refine keeps_bind ?_ fun _ =>
        keeps_ite (fun _ => keeps_pure _) fun _ => ih _ _ _
      exact keeps_ite (fun _ => keeps_wrSects _ _ _) fun _ => keeps_pure _

/-- `alloc_sect_map_bit` does. -/
theorem keeps_allocSectMapBit (k : Nat) : Keeps SameTables (allocSectMapBit dev k) :=
  keeps_bind (keeps_getSuperBlock _) fun _ =>
    keeps_bind (keeps_allocSects _ _ _ _ _) fun _ =>
      keeps_bind keeps_check fun _ => keeps_pure _

/-- The search for a free entry of the directory does. -/
theorem keeps_slotSects : ∀ left i deIdx,
    Keeps SameTables (slotSects dev sect0 n left i deIdx) := by
  intro left
  induction left with
  | zero =>
      exact fun i deIdx => keeps_ite (fun _ => keeps_throw _)
        fun _ => keeps_pure _
  | succ left ih =>
      intro i deIdx
      refine keeps_bind (keeps_rdSects _ _ _) fun _ => keeps_get fun s => ?_
      cases slotEntries n s.fsbuf 32 0 deIdx with
      | free j => exact keeps_pure _
      | last j => exact keeps_pure _
      | next deIdx => exact ih _ _

theorem keeps_clearBit (j k : Nat) : Keeps SameTables (clearBit j k) :=
  keeps_get fun _ => keeps_bind keeps_check fun _ => keeps_setBuf _

/-- `clear_inode_map_bit` does. -/
theorem keeps_clearInodeMapBit : Keeps SameTables (clearInodeMapBit dev nr) := by
  refine keeps_bind keeps_check fun _ => ?_
  refine keeps_bind (keeps_rdSects _ _ _) fun _ => ?_
  exact keeps_ite (fun _ => keeps_throw _) fun _ =>
    keeps_bind (keeps_clearBit _ _) fun _ => keeps_wrSects _ _ _

theorem keeps_clearBits (j : Nat) :
    ∀ left k bits, Keeps SameTables (clearBits j left k bits) := by
  intro left
  induction left with
  | zero => exact fun k bits => keeps_pure _
  | succ left ih =>
      exact fun k bits => keeps_ite (fun _ => keeps_pure _) fun _ =>
        keeps_bind (keeps_clearBit _ _) fun _ => ih _ _

theorem keeps_nextSect (sect : Int) (idx : Nat) :
    Keeps SameTables (nextSect dev sect idx) :=
  keeps_ite (fun _ => keeps_bind (keeps_wrSects _ _ _) fun _ =>
    keeps_bind (keeps_rdSects _ _ _) fun _ => keeps_pure _)
    fun _ => keeps_pure _

theorem keeps_clearBytes : ∀ left sect idx bits,
    Keeps SameTables (clearBytes dev left sect idx bits) := by
  intro left
  induction left with
  | zero => exact fun sect idx bits => keeps_pure _
  | succ left ih =>
      intro sect idx bits
      refine keeps_bind (keeps_nextSect _ _) fun r => keeps_get fun s => ?_
      exact keeps_bind keeps_check fun _ =>
        keeps_bind (keeps_setBuf _) fun _ => ih _ _ _

/-- `clear_sector_map_bits` does. -/
theorem keeps_clearSectorMapBits (i : Fin NR_INODE) :
    Keeps SameTables (clearSectorMapBits i) := by
  refine keeps_get fun s => keeps_bind (keeps_getSuperBlock _) fun sb => ?_
  refine keeps_bind (keeps_rdSects _ _ _) fun _ => ?_
  refine keeps_ite (fun _ => keeps_throw _) fun _ => ?_
  refine keeps_bind (keeps_clearBits _ _ _ _) fun bits => ?_
  refine keeps_bind (keeps_clearBytes _ _ _ _) fun r => ?_
  refine keeps_bind (keeps_nextSect _ _) fun r => ?_
  refine keeps_ite (fun _ => keeps_throw _) fun _ => keeps_get fun s => ?_
  exact keeps_bind keeps_check fun _ =>
    keeps_bind (keeps_setBuf _) fun _ => keeps_wrSects _ _ _

/-- The search for the entry of an inode does. -/
theorem keeps_scanSects : ∀ left i deNr deSize,
    Keeps SameTables (scanSects dev sect0 nr n left i deNr deSize) := by
  intro left
  induction left with
  | zero => exact fun i deNr deSize => keeps_pure _
  | succ left ih =>
      intro i deNr deSize
      refine keeps_bind (keeps_rdSects _ _ _) fun _ => keeps_get fun s => ?_
      cases scanEntries nr n s.fsbuf 32 0 deNr deSize with
      | found j deNr deSize =>
          exact keeps_bind (keeps_setBuf _) fun _ =>
            keeps_bind (keeps_wrSects _ _ _) fun _ => keeps_pure _
      | stop deNr deSize =>
          exact keeps_ite (fun _ => keeps_pure _) fun _ => ih _ _ _

end Sources

/-! ## Opening -/

section Opening

variable {s t : Fs} {dev nr : Int} {i : Fin NR_INODE}

/-- What `get_file_inode` does to the table: the entry `i` has one user more,
    or is filled from the disk. -/
inductive Obtained (s : Fs) (dev nr : Int) (i : Fin NR_INODE) : Fs → Prop where
  | cached (h : s.cached dev nr = some i) :
      Obtained s dev nr i (s.updInode i fun p => { p with cnt := p.cnt + 1 })
  | loaded (sb : SuperBlock) (h : s.cached dev nr = none)
      (hfree : s.freeInode = some i) (hsb : s.superOf dev = some sb) :
      Obtained s dev nr i
        (s.updInode i fun _ => diskInode (s.disk dev) sb dev nr)

/-- **WHAT `get_file_inode` DOES** to the tables. -/
theorem getFileInode_tables (hnr : nr ≠ 0) {p : Option (Fin NR_INODE)}
    (h : getFileInode dev nr s = .ok p t) :
    ∃ i u, p = some i ∧ Obtained s dev nr i u ∧ SameTables u t := by
  obtain ⟨i, rfl, ⟨hc, rfl⟩ | ⟨hc, hf, sb, hsb, -, rfl⟩⟩ :=
    run_getFileInode hnr h
  · exact ⟨i, _, rfl, .cached hc, same_refl _⟩
  · exact ⟨i, _, rfl, .loaded sb hc hf hsb, ⟨rfl, rfl, rfl, rfl, rfl⟩⟩

/-- The buffer is not what `get_file_inode` looks at. -/
theorem obtained_fsbuf {g : Nat → Byte} {w : Fs}
    (h : Obtained { s with fsbuf := g } dev nr i w) :
    ∃ v, Obtained s dev nr i v ∧ SameTables v w := by
  cases h with
  | cached hc => exact ⟨_, .cached hc, ⟨rfl, rfl, rfl, rfl, rfl⟩⟩
  | loaded sb hc hfree hsb =>
      exact ⟨_, .loaded sb hc hfree hsb, ⟨rfl, rfl, rfl, rfl, rfl⟩⟩

/-- The inode that `do_open` finds or makes, and what that does to the
    tables. -/
inductive Located (s : Fs) (path : List Byte) (flags : BitVec 32)
    (i : Fin NR_INODE) : Fs → Prop where
  | existing {w : Fs} (hnr : numberOf s path ≠ INVALID_INODE)
      (hflags : flags &&& O_RDWR ≠ 0)
      (h : Obtained s (s.inodeTable s.rootInode).dev (numberOf s path) i w) :
      Located s path flags i w
  | created {b : Nat} (start : Int) (free : Bool)
      (hnr : numberOf s path = INVALID_INODE)
      (hflags : flags &&& O_CREAT ≠ 0)
      (hfirst : FirstClear (inodeMap (s.disk (s.inodeTable s.rootInode).dev))
        0 4096 b)
      (hb : b ≠ 0)
      (hentry : s.cached (s.inodeTable s.rootInode).dev b = some i ∨
        s.cached (s.inodeTable s.rootInode).dev b = none ∧
          s.freeInode = some i) :
      Located s path flags i
        ((s.updInode i fun _ =>
            newInode (s.inodeTable s.rootInode).dev b start).updInode
          s.rootInode (grown free))

/-- What is in the table depends on the tables. -/
theorem cached_congr {s t : Fs} (h : SameTables s t) (dev nr : Int) :
    t.cached dev nr = s.cached dev nr := by
  rw [Fs.cached, Fs.cached, h.inodes]

/-- And so does the free entry. -/
theorem freeInode_congr {s t : Fs} (h : SameTables s t) :
    t.freeInode = s.freeInode := by
  rw [Fs.freeInode, Fs.freeInode, h.inodes]

/-- The new entry of the directory is no other change to the tables than its
    size. -/
theorem makeNewDirEntry_tables {root : Fin NR_INODE} {name : List Byte}
    {u : Unit} (h : makeNewDirEntry root nr name s = .ok u t) :
    ∃ free, SameTables (s.updInode root (grown free)) t := by
  rw [makeNewDirEntry, run_get_bind] at h
  obtain ⟨r, s₁, hslot, h⟩ := run_bind.mp h
  obtain ⟨_, s₂, hgrow, h⟩ := run_bind.mp h
  have hslots := keeps_slotSects _ _ _ _ _ _ hslot
  obtain rfl := run_growRoot.mp hgrow
  have hrest : Keeps SameTables (setBuf (fun b => putEntry b (16 * r.2.1) nr name) >>=
      fun _ => wrSects (s.inodeTable root).dev
        ((s.inodeTable root).sectStart.toInt + r.1) 1 >>=
        fun _ => writeInode root) :=
    keeps_bind (keeps_setBuf _) fun _ =>
      keeps_bind (keeps_wrSects _ _ _) fun _ => keeps_writeInode _
  exact ⟨r.2.2, same_trans (same_updInode hslots root (grown r.2.2))
    (hrest _ _ _ h)⟩

/-- **WHAT `create_file` DOES** to the tables. -/
theorem createFile_tables {path : List Byte} {p : Option (Fin NR_INODE)}
    (h : createFile path s = .ok p t) :
    p = none ∧ s = t ∨ ∃ i b start free, p = some i ∧ b ≠ 0 ∧
      FirstClear (inodeMap (s.disk (s.inodeTable s.rootInode).dev)) 0 4096 b ∧
      (s.cached (s.inodeTable s.rootInode).dev b = some i ∨
        s.cached (s.inodeTable s.rootInode).dev b = none ∧
          s.freeInode = some i) ∧
      SameTables ((s.updInode i fun _ => newInode
          (s.inodeTable s.rootInode).dev b start).updInode s.rootInode
        (grown free)) t := by
  cases p with
  | none => exact Or.inl ⟨rfl, createFile_null h⟩
  | some i =>
      right
      obtain ⟨dev, hdev⟩ : ∃ dev, (s.inodeTable s.rootInode).dev = dev :=
        ⟨_, rfl⟩
      rw [createFile] at h
      cases hname : getFileName path with
      | none =>
          rw [hname] at h
          cases h
      | some name =>
          rw [hname] at h
          dsimp only at h
          rw [run_get_bind, hdev] at h
          obtain ⟨nr, s₁, hnr, h⟩ := run_bind.mp h
          obtain ⟨start, s₂, hstart, h⟩ := run_bind.mp h
          obtain ⟨j, s₃, hnew, h⟩ := run_bind.mp h
          rw [run_get_bind] at h
          obtain ⟨_, s₄, hdir, h⟩ := run_bind.mp h
          cases h
          have hs₂ : SameTables s s₂ :=
            same_trans (keeps_allocInodeMapBit _ _ _ hnr)
              (keeps_allocSectMapBit _ _ _ _ hstart)
          obtain ⟨hne, s', sb, hget, -, -, rfl⟩ := run_makeNewInode hnew
          rcases run_allocInodeMapBit hnr with ⟨h0, -⟩ |
            ⟨b, _, _, hfirst, rfl, -, -⟩
          · exact absurd h0 hne
          obtain ⟨free, hgrown⟩ := makeNewDirEntry_tables hdir
          obtain ⟨i', u, hi, hobt, hu⟩ := getFileInode_tables hne hget
          cases hi
          rw [hdev]
          refine ⟨i, b, start, free, rfl, fun h => hne (by omega), hfirst, ?_,
            ?_⟩
          · rw [← cached_congr hs₂, ← freeInode_congr hs₂]
            cases hobt with
            | cached h => exact Or.inl h
            | loaded sb h hfree => exact Or.inr ⟨h, hfree⟩
          · refine same_trans (same_updInode ?_ _ _) hgrown
            -- whatever was obtained is replaced by the new inode
            have hlast : SameTables
                (u.updInode i fun _ => newInode dev b start)
                ((s'.updInode i fun _ => newInode dev b start).written i sb) :=
              same_trans (same_updInode hu i _) ⟨rfl, rfl, rfl, rfl, rfl⟩
            refine same_trans ?_ hlast
            cases hobt with
            | cached _ =>
                refine ⟨?_, hs₂.supers, hs₂.descs, hs₂.slots, hs₂.root⟩
                rw [Fs.updInode, Fs.updInode, Fs.updInode, hs₂.inodes]
                exact Function.update_idem ..
            | loaded _ _ _ _ =>
                refine ⟨?_, hs₂.supers, hs₂.descs, hs₂.slots, hs₂.root⟩
                rw [Fs.updInode, Fs.updInode, Fs.updInode, hs₂.inodes]
                exact Function.update_idem ..

/-- **WHAT AN OPEN DOES** to find its inode. -/
theorem findInode_tables {path : List Byte} {flags : BitVec 32}
    {p : Option (Option (Fin NR_INODE))}
    (h : findInode path flags s = .ok p t) :
    (p = none ∨ p = some none) ∧ SameTables s t ∨
      ∃ i w, p = some (some i) ∧ Located s path flags i w ∧
        SameTables w t := by
  obtain ⟨nr, s₁, hrun, h⟩ := run_bind.mp h
  obtain ⟨⟨g, rfl⟩, -⟩ := run_getFileInodeNr hrun
  obtain rfl := getFileInodeNr_number hrun
  have hsame : SameTables s { s with fsbuf := g } := ⟨rfl, rfl, rfl, rfl, rfl⟩
  -- a file that is not there is created for O_CREAT, one that is there is
  -- opened for O_RDWR
  by_cases hnr : numberOf s path = INVALID_INODE
  · rw [if_pos hnr] at h
    by_cases hflags : flags &&& O_CREAT ≠ 0
    · rw [if_pos hflags] at h
      obtain ⟨q, hnew, rfl⟩ := run_map.mp h
      rcases createFile_tables hnew with ⟨rfl, rfl⟩ |
        ⟨i, b, start, free, rfl, hb, hfirst, hentry, htables⟩
      · exact Or.inl ⟨Or.inr rfl, hsame⟩
      · refine Or.inr ⟨i, _, rfl,
          .created start free hnr hflags hfirst hb hentry, ?_⟩
        exact ⟨htables.inodes, htables.supers, htables.descs, htables.slots,
          htables.root⟩
    · rw [if_neg hflags] at h
      cases h
      exact Or.inl ⟨Or.inl rfl, hsame⟩
  · rw [if_neg hnr] at h
    by_cases hflags : flags &&& O_RDWR ≠ 0
    · rw [if_pos hflags] at h
      split at h
      · obtain ⟨_, _, hcheck, h⟩ := run_bind.mp h
        obtain ⟨-, rfl⟩ := run_check.mp hcheck
        cases h
        exact Or.inl ⟨Or.inl rfl, hsame⟩
      · obtain ⟨_, _, hcheck, h⟩ := run_bind.mp h
        obtain ⟨-, rfl⟩ := run_check.mp hcheck
        cases hname : getFileName path with
        | none =>
            rw [hname] at h
            cases h
            exact Or.inl ⟨Or.inl rfl, hsame⟩
        | some name =>
            rw [hname] at h
            dsimp only at h
            rw [run_get_bind] at h
            obtain ⟨q, hget, rfl⟩ := run_map.mp h
            obtain ⟨i, w, rfl, hobt, hw⟩ := getFileInode_tables hnr hget
            obtain ⟨v, hv, hvw⟩ := obtained_fsbuf hobt
            exact Or.inr ⟨i, v, rfl, .existing hnr hflags hv,
              same_trans hvw hw⟩
    · rw [if_neg hflags] at h
      cases h
      exact Or.inl ⟨Or.inl rfl, hsame⟩

/-- O_TRUNC makes the file empty. -/
def truncated (flags : BitVec 32) (i : Fin NR_INODE) (s : Fs) : Fs :=
  if flags &&& O_TRUNC = 0 then s
  else s.updInode i fun p => { p with fileSize := 0 }

/-- What O_TRUNC does to the tables. -/
theorem truncInode_tables {flags : BitVec 32} {u : Unit}
    (h : truncInode flags (some i) s = .ok u t) :
    SameTables (truncated flags i s) t := by
  rw [truncInode] at h
  rw [truncated]
  split at h
  · rename_i hflags
    rw [if_pos hflags]
    cases h
    exact same_refl _
  · rename_i hflags
    rw [if_neg hflags]
    obtain ⟨_, u, hmod, hw⟩ := run_bind.mp h
    obtain rfl := run_modify.mp hmod
    exact keeps_writeInode i _ _ _ hw

/-- O_TRUNC does the same to the same tables. -/
theorem same_truncated {u : Fs} (h : SameTables s u) (flags : BitVec 32)
    (i : Fin NR_INODE) :
    SameTables (truncated flags i s) (truncated flags i u) := by
  rw [truncated, truncated]
  split
  · exact h
  · exact same_updInode h i _

/-- It leaves the descriptors alone. -/
theorem truncated_descs (flags : BitVec 32) (i : Fin NR_INODE) (s : Fs) :
    (truncated flags i s).fileDescTable = s.fileDescTable := by
  rw [truncated]
  split <;> rfl

/-- A descriptor is connected in the same way. -/
theorem same_connect {u : Fs} (h : SameTables s u) (pid : Int)
    (fd : Fin NR_FILES) (d : Fin NR_FILE_DESC) (i : Fin NR_INODE)
    (flags : BitVec 32) :
    SameTables (connect s pid fd d i flags) (connect u pid fd d i flags) := by
  refine ⟨h.inodes, h.supers, ?_, ?_, h.root⟩
  · rw [connect, connect, h.descs]
  · rw [connect, connect, h.slots]

/-- Finding an inode leaves the descriptors alone. -/
theorem located_descs {path : List Byte} {flags : BitVec 32} {w : Fs}
    (h : Located s path flags i w) : w.fileDescTable = s.fileDescTable := by
  cases h with
  | existing _ _ hobt => cases hobt <;> rfl
  | created _ _ _ _ _ => rfl

/-- **`do_open`** answers -1 and leaves the tables as they are, or connects a
    free descriptor to the inode. -/
theorem doOpen_tables {pid ret : Int} {pathname : List Byte}
    {flags : BitVec 32} (h : doOpen pid pathname flags s = .ok ret t) :
    ret = -1 ∧ SameTables s t ∨
      ∃ fd d i w, freeFd s pid = some fd ∧ freeDesc s = some d ∧
        ret = (fd.val : Int) ∧
        Located s (pathname.takeWhile (· ≠ 0)) flags i w ∧
        SameTables (connect (truncated flags i w) pid fd d i flags) t := by
  rw [doOpen] at h
  obtain ⟨_, _, hcheck, h⟩ := run_bind.mp h
  obtain ⟨-, rfl⟩ := run_check.mp hcheck
  rw [run_get_bind] at h
  cases hfd : freeFd s pid with
  | none =>
      rw [hfd] at h
      cases h
  | some fd =>
      rw [hfd] at h
      obtain ⟨p, s₁, hfind, h⟩ := run_bind.mp h
      rcases findInode_tables hfind with ⟨rfl | rfl, hsame⟩ |
        ⟨i, w, rfl, hloc, hw⟩
      · cases h
        exact Or.inl ⟨rfl, hsame⟩
      · -- `create_file` failed: with O_TRUNC the assertion on the null inode
        -- stops FS, without it the call returns -1
        left
        obtain ⟨_, s₂, htrunc, h⟩ := run_bind.mp h
        rw [run_get_bind] at h
        cases hdesc : freeDesc s₂ with
        | none =>
            rw [hdesc] at h
            cases h
        | some d =>
            rw [hdesc] at h
            rw [truncInode] at htrunc
            split at htrunc
            · cases htrunc
              cases h
              exact ⟨rfl, hsame⟩
            · cases htrunc
      · -- the tables are read before the inode was found, but a descriptor
        -- that was free then is free still
        right
        obtain ⟨_, s₂, htrunc, h⟩ := run_bind.mp h
        have hs₂ : SameTables (truncated flags i w) s₂ :=
          same_trans (same_truncated hw flags i) (truncInode_tables htrunc)
        have hfree : freeDesc s₂ = freeDesc s := by
          rw [freeDesc, freeDesc, hs₂.descs, truncated_descs,
            located_descs hloc]
        rw [run_get_bind, hfree] at h
        cases hdesc : freeDesc s with
        | none =>
            rw [hdesc] at h
            cases h
        | some d =>
            rw [hdesc] at h
            obtain ⟨_, s₃, hconnect, h⟩ := run_bind.mp h
            obtain rfl := run_modify.mp hconnect
            obtain ⟨_, s₄, htype, h⟩ := run_bind.mp h
            have hkeep : Keeps SameTables (checkType i) := keeps_get fun s =>
              keeps_ite (fun _ => keeps_check) fun _ =>
                keeps_ite (fun _ => keeps_check) fun _ => keeps_check
            cases h
            exact ⟨fd, d, i, w, rfl, rfl, rfl, hloc,
              same_trans (same_connect hs₂ pid fd d i flags)
                (hkeep _ _ _ htype)⟩

end Opening

/-! ## Moving descriptors -/

section Descriptors

variable {io : Io} {s t : Fs} {dev : Int} {d : Fin NR_FILE_DESC}
  {i : Fin NR_INODE}

/-- The descriptor is `n` bytes further. -/
def advanced (d : Fin NR_FILE_DESC) (n : Nat) (s : Fs) : Fs :=
  s.updDesc d fun f => { f with pos := f.pos + n }

/-- No byte has moved. -/
theorem advanced_zero (d : Fin NR_FILE_DESC) (s : Fs) :
    SameTables (advanced d 0 s) s := by
  refine ⟨rfl, rfl, ?_, rfl, rfl⟩
  rw [advanced, Fs.updDesc, Int.natCast_zero]
  simp only [Int.add_zero]
  exact (Function.update_eq_self ..).symm

/-- Bytes that move one behind the other. -/
theorem advanced_add {u : Fs} {m n : Nat} (h₁ : SameTables (advanced d m s) u)
    (h₂ : SameTables (advanced d n u) t) :
    SameTables (advanced d (m + n) s) t := by
  refine ⟨h₂.inodes.trans h₁.inodes, h₂.supers.trans h₁.supers, ?_,
    h₂.slots.trans h₁.slots, h₂.root.trans h₁.root⟩
  rw [h₂.descs, advanced, Fs.updDesc, h₁.descs, advanced, advanced, Fs.updDesc,
    Fs.updDesc]
  simp only [Function.update_self, Function.update_idem, Int.natCast_add,
    Int.add_assoc]

/-- **ONE ROUND** of the loop over the sectors. -/
theorem rwRound_tables {chunk a : Int} {v v' : Rw}
    (h : rwRound io dev d chunk a v s = .ok v' t) :
    Addressed a ∧ v'.posOff = 0 ∧ ∃ n : Nat, SameTables (advanced d n s) t ∧
      v'.bytesLeft = v.bytesLeft - n ∧ (n : Int) ≤ v.bytesLeft ∧
      (n : Int) ≤ chunk * 512 - v.posOff := by
  simp only [rwRound, run_bind, run_rdSects, run_copySize, run_modify,
    run_pure, EStateM.Result.ok.injEq] at h
  obtain ⟨_, _, ⟨haddr, rfl⟩, n, _, ⟨h0, hn, rfl⟩, buf, u, hcopy, _, _, rfl,
    rfl, rfl⟩ := h
  have hbytes : min v.bytesLeft (chunk * 512 - v.posOff) = n := by omega
  have hkeep : ∀ n, Keeps SameTables (copyBytes io dev a chunk n v) := by
    intro n
    cases io with
    | read => exact keeps_get fun s => keeps_pure _
    | write =>
        exact keeps_bind (keeps_setBuf _) fun _ =>
          keeps_bind (keeps_wrSects _ _ _) fun _ => keeps_pure _
  have hu := hkeep n _ _ _ hcopy
  refine ⟨haddr, rfl, n, ?_, ?_, by omega, by omega⟩
  · have hs : SameTables s u :=
      ⟨hu.inodes, hu.supers, hu.descs, hu.slots, hu.root⟩
    rw [hbytes]
    exact same_updDesc hs d _
  · dsimp only
    rw [hbytes]

/-- **THE LOOP** moves the descriptor, no further than the bytes that were
    asked for and the chunks that were gone through. -/
theorem rwLoop_tables {hi chunk : Int} :
    ∀ {fuel : Nat} {a : Int} {v v' : Rw} {s t : Fs},
      rwLoop io dev d hi chunk fuel a v s = .ok v' t →
      ∃ n : Nat, SameTables (advanced d n s) t ∧
        (n = 0 ∨ Addressed a ∧ a ≤ hi ∧ (n : Int) ≤ v.bytesLeft ∧
          ∃ k : Nat, a + k * chunk ≤ hi ∧
            v.posOff + n ≤ (k * chunk + chunk) * 512) := by
  intro fuel
  induction fuel with
  | zero =>
      intro a v v' s t h
      rw [rwLoop] at h
      split at h
      · cases h
      · cases h
        exact ⟨0, advanced_zero d s, Or.inl rfl⟩
  | succ fuel ih =>
      intro a v v' s t h
      rw [rwLoop] at h
      split at h
      · rename_i ha
        obtain ⟨v₁, u, hround, hloop⟩ := run_bind.mp h
        obtain ⟨haddr, hoff, m, hm, hleft, hbytes, hfit⟩ := rwRound_tables hround
        obtain ⟨n, hn, hmoved⟩ := ih hloop
        refine ⟨m + n, advanced_add hm hn, Or.inr ⟨haddr, ha, ?_⟩⟩
        rcases hmoved with rfl | ⟨-, -, hrest, k, hk, hle⟩
        · exact ⟨by omega, 0, by omega, by omega⟩
        · have hsucc : ((k + 1 : Nat) : Int) * chunk = k * chunk + chunk := by
            rw [Int.natCast_succ, Int.add_mul, Int.one_mul]
          refine ⟨by omega, k + 1, ?_, ?_⟩ <;> rw [hsucc] <;> omega
      · cases h
        exact ⟨0, advanced_zero d s, Or.inl rfl⟩

/-- A position behind the end of the file is its end. -/
def extended (i : Fin NR_INODE) (d : Fin NR_FILE_DESC) (s : Fs) : Fs :=
  let pos := BitVec.ofInt 32 (s.fileDescTable d).pos
  if (s.inodeTable i).fileSize < pos then
    s.updInode i fun p => { p with fileSize := pos }
  else s

/-- A file grows in the same way. -/
theorem same_extended {u : Fs} (h : SameTables s u) (i : Fin NR_INODE)
    (d : Fin NR_FILE_DESC) : SameTables (extended i d s) (extended i d u) := by
  rw [extended, extended, h.inodes, h.descs]
  split
  · exact same_updInode h i _
  · exact h

/-- What a write does to the size. -/
theorem growSize_tables {u : Unit} (h : growSize i d s = .ok u t) :
    SameTables (extended i d s) t := by
  rw [growSize, run_get_bind] at h
  rw [extended]
  split at h
  · rename_i hlt
    rw [if_pos hlt]
    obtain ⟨_, u, hmod, hw⟩ := run_bind.mp h
    obtain rfl := run_modify.mp hmod
    exact keeps_writeInode i _ _ _ hw
  · rename_i hlt
    rw [if_neg hlt]
    cases h
    exact same_refl _

/-- A transfer moves the descriptor and may extend the file. -/
theorem regular_tables {p : Inode} {pos len : Int} {buf : Nat → Byte}
    {r : Int × (Nat → Byte)} (hp : s.inodeTable i = p)
    (hpos : (s.fileDescTable d).pos = pos)
    (h : doReadWriteRegular io i d len buf s = .ok r t) :
    (-2147483648 ≤ pos + len ∧ pos + len < 2147483648) ∧
      ∃ (n : Nat) (lo hi chunk : Int),
        SameTables (extended i d (advanced d n s)) t ∧ lo = rwSect p pos ∧
          hi = rwSect p (posEnd io p (pos + len)) ∧
          chunk = min (hi - lo + 1) 2048 ∧
          (n = 0 ∨ Addressed lo ∧ lo ≤ hi ∧ (n : Int) ≤ len ∧
            ∃ k : Nat, lo + k * chunk ≤ hi ∧
              pos.tmod 512 + n ≤ (k * chunk + chunk) * 512) := by
  obtain ⟨ret, buf'⟩ := r
  obtain ⟨-, hint, v, u, hloop, hgrow, -⟩ := (run_regular hp hpos).mp h
  obtain ⟨n, hn, hmoved⟩ := rwLoop_tables hloop
  exact ⟨hint, n, _, _, _,
    same_trans (same_extended hn i d) (growSize_tables hgrow), rfl, rfl, rfl,
    hmoved⟩

/-- Looking a descriptor up changes nothing. -/
theorem fdSlot_same {fd : Int} {k : Fin NR_FILES} (h : fdSlot fd s = .ok k t) :
    s = t := by
  rw [fdSlot] at h
  split at h
  · cases h
    rfl
  · cases h

/-- A number that is an index stands for what is in `file_desc` there. -/
theorem fdSlot_slot {pid fd : Int} {k : Fin NR_FILES}
    (h : fdSlot fd s = .ok k s) : s.fileDesc pid k = slotOf s pid fd := by
  rcases fdSlot_cases s pid fd with ⟨j, hj, hslot⟩ | ⟨hj, -⟩
  · cases h.symm.trans hj
    exact hslot
  · cases h.symm.trans hj

/-- **`do_read_write`** leaves everything as it is but for a transfer of a
    file. -/
theorem doReadWrite_tables {pid fd len : Int} {reply : Int × (Nat → Byte)}
    {buf : Nat → Byte} {r : Int × (Nat → Byte)}
    (h : doReadWrite io pid fd len reply buf s = .ok r t) :
    s = t ∨ ∃ d i, Behind s pid fd d i ∧
      (s.fileDescTable d).mode &&& O_RDWR ≠ 0 ∧
      doReadWriteRegular io i d len buf s = .ok r t := by
  obtain ⟨k, _, hk, h⟩ := run_bind.mp h
  obtain rfl := fdSlot_same hk
  rw [run_get_bind, fdSlot_slot hk] at h
  cases hd : slotOf s pid fd with
  | none =>
      rw [hd] at h
      cases h
  | some d =>
      rw [hd] at h
      dsimp only at h
      split at h
      · cases h
        exact Or.inl rfl
      · rename_i hmode
        cases hi : (s.fileDescTable d).inode with
        | none =>
            rw [hi] at h
            cases h
        | some i =>
            rw [hi] at h
            dsimp only at h
            split at h
            · rw [doReadWriteSpecial, run_get_bind] at h
              obtain ⟨_, _, hdriver, h⟩ := run_bind.mp h
              obtain ⟨-, rfl⟩ := run_check.mp hdriver
              obtain ⟨_, _, hreply, h⟩ := run_bind.mp h
              obtain ⟨-, rfl⟩ := run_check.mp hreply
              cases h
              exact Or.inl rfl
            · exact Or.inr ⟨d, i, ⟨hd, hi⟩, hmode, h⟩

/-- **`do_lseek`** answers -1, or moves the descriptor to a place in the
    file. -/
theorem doLseek_tables {pid fd off whence ret : Int}
    (h : doLseek pid fd off whence s = .ok ret t) :
    s = t ∨ ∃ d i pos, Behind s pid fd d i ∧ 0 ≤ pos ∧
      pos ≤ (s.inodeTable i).fileSize.toInt ∧
      t = s.updDesc d fun f => { f with pos := pos } := by
  obtain ⟨k, _, hk, h⟩ := run_bind.mp h
  obtain rfl := fdSlot_same hk
  rw [run_get_bind, fdSlot_slot hk] at h
  cases hd : slotOf s pid fd with
  | none =>
      rw [hd] at h
      cases h
  | some d =>
      rw [hd] at h
      dsimp only at h
      cases hi : (s.fileDescTable d).inode with
      | none =>
          rw [hi] at h
          cases h
      | some i =>
          rw [hi] at h
          obtain ⟨target, _, hseek, h⟩ := run_bind.mp h
          obtain rfl := seekPos_state hseek
          cases target with
          | none =>
              cases h
              exact Or.inl rfl
          | some pos =>
              dsimp only at h
              split at h
              · cases h
                exact Or.inl rfl
              · rename_i hrange
                obtain ⟨_, u, hmod, h⟩ := run_bind.mp h
                obtain rfl := run_modify.mp hmod
                cases h
                exact Or.inr ⟨d, i, _, ⟨hd, hi⟩, by omega, by omega, rfl⟩

end Descriptors

/-! ## Giving inodes back -/

section Uses

variable {s t : Fs} {i root : Fin NR_INODE} {nr : Int} {u : Unit}

/-- The inode has a user less. -/
def lessUsed (i : Fin NR_INODE) (s : Fs) : Fs :=
  s.updInode i fun p => { p with cnt := p.cnt - 1 }

/-- `put_inode` gives one reference up. -/
theorem putInode_tables (h : putInode i s = .ok u t) :
    0 < (s.inodeTable i).cnt ∧ t = lessUsed i s := by
  rw [putInode, run_get_bind] at h
  obtain ⟨_, _, hcheck, h⟩ := run_bind.mp h
  obtain ⟨hcnt, rfl⟩ := run_check.mp hcheck
  exact ⟨hcnt, run_modify.mp h⟩

/-- **`do_close`** gives up a slot. -/
theorem doClose_tables {pid fd ret : Int}
    (h : doClose pid fd s = .ok ret t) : ∃ k d i, s.fileDesc pid k = some d ∧
      (s.fileDescTable d).inode = some i ∧
      t = { (lessUsed i s).updDesc d dropDesc with
        fileDesc := Function.update s.fileDesc pid
          (Function.update (s.fileDesc pid) k none) } := by
  obtain ⟨k, _, hk, h⟩ := run_bind.mp h
  obtain rfl := fdSlot_same hk
  rw [run_get_bind] at h
  cases hd : s.fileDesc pid k with
  | none =>
      rw [hd] at h
      cases h
  | some d =>
      rw [hd] at h
      dsimp only at h
      cases hi : (s.fileDescTable d).inode with
      | none =>
          rw [hi] at h
          cases h
      | some i =>
          rw [hi] at h
          obtain ⟨_, u, hput, h⟩ := run_bind.mp h
          obtain ⟨-, rfl⟩ := putInode_tables hput
          cases h
          exact ⟨k, d, i, hd, hi, rfl⟩

/-- **`do_stat`** gets the inode and gives it back. -/
theorem doStat_tables {pathname : List Byte} {st : Stat}
    (h : doStat pathname s = .ok (some st) t) :
    numberOf s (pathname.takeWhile (· ≠ 0)) ≠ INVALID_INODE ∧ ∃ i w,
      Obtained s (s.inodeTable s.rootInode).dev
        (numberOf s (pathname.takeWhile (· ≠ 0))) i w ∧
      SameTables (lessUsed i w) t := by
  obtain ⟨_, _, hcheck, h⟩ := run_bind.mp h
  obtain ⟨-, rfl⟩ := run_check.mp hcheck
  obtain ⟨nr, s₁, hrun, h⟩ := run_bind.mp h
  obtain ⟨⟨g, rfl⟩, -⟩ := run_getFileInodeNr hrun
  obtain rfl := getFileInodeNr_number hrun
  by_cases hnr : numberOf s (pathname.takeWhile (· ≠ 0)) = INVALID_INODE
  · rw [if_pos hnr] at h
    cases h
  · rw [if_neg hnr] at h
    cases hname : getFileName (pathname.takeWhile (· ≠ 0)) with
    | none =>
        rw [hname] at h
        cases h
    | some name =>
        rw [hname] at h
        dsimp only at h
        rw [run_get_bind] at h
        obtain ⟨p, s₂, hget, h⟩ := run_bind.mp h
        obtain ⟨i, w, rfl, hobt, hw⟩ := getFileInode_tables hnr hget
        dsimp only at h
        rw [run_get_bind] at h
        obtain ⟨_, s₃, hput, h⟩ := run_bind.mp h
        obtain ⟨-, rfl⟩ := putInode_tables hput
        cases h
        obtain ⟨v, hv, hvw⟩ := obtained_fsbuf hobt
        exact ⟨hnr, i, v, hv, same_updInode (same_trans hvw hw) i _⟩

/-- The directory has a new size, or the old one. -/
def sized (root : Fin NR_INODE) (size : BitVec 32) (s : Fs) : Fs :=
  s.updInode root fun p => { p with fileSize := size }

/-- What a removal does to the root inode. -/
theorem clearDirectoryEntry_tables
    (h : clearDirectoryEntry root nr s = .ok u t) :
    ∃ size, SameTables (sized root size s) t := by
  rw [clearDirectoryEntry, run_get_bind] at h
  obtain ⟨r, s₁, hscan, h⟩ := run_bind.mp h
  obtain ⟨_, _, hcheck, h⟩ := run_bind.mp h
  obtain ⟨-, rfl⟩ := run_check.mp hcheck
  have hs₁ := keeps_scanSects _ _ _ _ _ _ _ hscan
  split at h
  · obtain ⟨_, s₂, hmod, hw⟩ := run_bind.mp h
    obtain rfl := run_modify.mp hmod
    exact ⟨_, same_trans (same_updInode hs₁ root _)
      (keeps_writeInode root _ _ _ hw)⟩
  · cases h
    refine ⟨(s.inodeTable root).fileSize, same_trans ?_ hs₁⟩
    refine ⟨(Function.update_eq_self ..).symm, rfl, rfl, rfl, rfl⟩

/-- The inode of a removed file. -/
def emptied (p : Inode) : Inode :=
  { p with fileType := 0, fileSize := 0, sectStart := 0, nrSects := 0 }

/-- And to the inode itself. -/
theorem clearInodeFields_tables (h : clearInodeFields i s = .ok u t) :
    SameTables (lessUsed i (s.updInode i emptied)) t := by
  obtain ⟨_, s₁, hmod, h⟩ := run_bind.mp h
  obtain rfl := run_modify.mp hmod
  obtain ⟨_, s₂, hw, hput⟩ := run_bind.mp h
  obtain ⟨-, rfl⟩ := putInode_tables hput
  exact same_updInode (keeps_writeInode i _ _ _ hw) i _

/-- **`do_unlink`** answers -1, or empties an inode that nobody else uses and
    gives it back. -/
theorem doUnlink_tables {pathname : List Byte} {ret : Int}
    (h : doUnlink pathname s = .ok ret t) :
    ret = -1 ∨
      numberOf s (pathname.takeWhile (· ≠ 0)) ≠ INVALID_INODE ∧ ∃ i w size,
        Obtained s (s.inodeTable s.rootInode).dev
          (numberOf s (pathname.takeWhile (· ≠ 0))) i w ∧
        (w.inodeTable i).cnt ≤ 1 ∧
        SameTables (sized s.rootInode size
          (lessUsed i (w.updInode i emptied))) t := by
  obtain ⟨_, _, hcheck, h⟩ := run_bind.mp h
  obtain ⟨-, rfl⟩ := run_check.mp hcheck
  obtain ⟨path, hpath⟩ : ∃ path, path = pathname.takeWhile (· ≠ 0) := ⟨_, rfl⟩
  rw [← hpath] at h ⊢
  split at h
  · cases h
    exact Or.inl rfl
  obtain ⟨nr, s₁, hrun, h⟩ := run_bind.mp h
  obtain ⟨⟨g, rfl⟩, -⟩ := run_getFileInodeNr hrun
  obtain rfl := getFileInodeNr_number hrun
  by_cases hnr : numberOf s path = INVALID_INODE
  · rw [if_pos hnr] at h
    cases h
    exact Or.inl rfl
  rw [if_neg hnr, unlinkInode] at h
  cases hname : getFileName path with
  | none =>
      rw [hname] at h
      cases h
      exact Or.inl rfl
  | some name =>
      rw [hname] at h
      dsimp only at h
      rw [run_get_bind] at h
      obtain ⟨p, s₂, hget, h⟩ := run_bind.mp h
      obtain ⟨i, w, rfl, hobt, hw⟩ := getFileInode_tables hnr hget
      dsimp only at h
      rw [run_get_bind] at h
      split at h
      · cases h
        exact Or.inl rfl
      split at h
      · cases h
        exact Or.inl rfl
      rename_i hcnt
      -- only the count and the fields of the inode, and the size of the root,
      -- reach the tables; the maps and the entry are sectors
      obtain ⟨_, s₃, himap, h⟩ := run_bind.mp h
      obtain ⟨_, s₄, hsmap, h⟩ := run_bind.mp h
      obtain ⟨_, s₅, hfields, h⟩ := run_bind.mp h
      obtain ⟨_, s₆, hdir, h⟩ := run_bind.mp h
      cases h
      obtain ⟨size, hsize⟩ := clearDirectoryEntry_tables hdir
      obtain ⟨v, hv, hvw⟩ := obtained_fsbuf hobt
      have hs₂ := same_trans hvw hw
      have hs₄ := same_trans hs₂ (same_trans
        (keeps_clearInodeMapBit _ _ _ himap)
        (keeps_clearSectorMapBits i _ _ _ hsmap))
      have hs₅ := same_trans (same_updInode (same_updInode hs₄ i emptied) i
        fun p => { p with cnt := p.cnt - 1 })
        (clearInodeFields_tables hfields)
      have hall := same_trans (same_updInode hs₅ s.rootInode
        fun p => { p with fileSize := size }) hsize
      rw [hs₂.inodes] at hcnt
      exact Or.inr ⟨hnr, i, v, size, hv, Int.not_lt.mp hcnt, hall⟩

end Uses

end KosTables
