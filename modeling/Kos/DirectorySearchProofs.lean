import Kos.DirectoryMapProofs
import Kos.MapRunsProofs

/-! # The search over runs

    In a state that meets the invariant of the maps, `get_file_inode_nr` goes
    through the entries of the image.

    * While `Names` holds it returns what the map has for the name
      (`search_run`, `numberOf_files`);
    * a file that is created has its name, and one that is removed has none any
      more, if the new end is behind the other entries (`names_created`,
      `names_removed`). -/

namespace KosDirectorySearch

open FlatMemory (Byte)
open Overlay
open SlotTable
open KosFs
open KosMkfs
open KosFileNames
open KosOpenFile
open KosRootDirectory
open KosRefusals (numberOf)
open KosDiskImage
open KosDiskSteps
open KosDiskRequests
open KosFileMaps
open KosMapRuns (Inv NewFile FileGone root_facts)
open KosDirectoryMap

section Search

variable {sb : SuperBlock} {live : Finset Nat} {files : List Byte → Option Nat}
  {s t : Fs} {path name : List Byte} {n : Nat}

theorem path_chars (pathname : List Byte) : 0 ∉ pathname.takeWhile (· ≠ 0) := by
  intro h
  have hne := List.all_eq_true.mp List.all_takeWhile 0 h
  exact of_decide_eq_true hne rfl

/-- The characters of a name are some of its path. -/
theorem name_chars (hnul : 0 ∉ path) (hname : getFileName path = some name) :
    0 ∉ name ∧ name.length ≤ MAX_FILENAME_LEN := by
  obtain ⟨-, rfl⟩ := getFileName_some.mp hname
  refine ⟨fun hin => hnul ?_, List.length_take_le ..⟩
  have hstem := List.mem_of_mem_take hin
  rw [stem] at hstem
  split at hstem
  · exact List.mem_of_mem_tail hstem
  · exact hstem

/-- The search goes through the entries of the image. -/
theorem search_image (hfits : Fits sb) (h : Inv sb live s) (hnul : 0 ∉ path)
    (hname : getFileName path = some name) (hne : name ≠ []) :
    ∃ u, getFileInodeNr path s =
      .ok (firstNr (sameAt name (imageIn sb s).dir) (numAt (imageIn sb s).dir)
        (looked ((imageIn sb s).inode 1).fileSize.toNat) 0) u := by
  obtain ⟨hroot, -, -⟩ := root_facts h
  obtain ⟨r, hr⟩ : ∃ r, r = s.inodeTable s.rootInode := ⟨_, rfl⟩
  rw [← hr] at hroot
  have hfirst : name.getD 0 0 ≠ 0 := by
    cases name with
    | nil => exact absurd rfl hne
    | cons c l =>
        exact fun hc => (name_chars hnul hname).1 (hc ▸ List.mem_cons_self ..)
  have hsize := hroot.dir.size
  obtain ⟨g, hg⟩ := getFileInodeNr_run
    (hroot.entry.symm ▸ placed_of_rootDir hfits.made hroot.dir) hname hfirst
  rw [hroot.entry] at hg
  have hbytes : dirBytes s r = drop (s.disk ROOT_DEV_NR) (dirByte sb) := by
    rw [dirBytes, hroot.dev, hroot.dir.start]
    rfl
  have hlooked := looked_eq r.fileSize.toNat
  rw [hbytes] at hg
  refine ⟨_, hg.trans (congrArg (fun nr => EStateM.Result.ok nr _) ?_)⟩
  rw [hroot.stored]
  refine firstNr_congr fun k _ hk => ?_
  have hsame : ∀ l < 16, drop (s.disk ROOT_DEV_NR) (dirByte sb) (16 * k + l) =
      (imageIn sb s).dir (16 * k + l) := by
    intro l hl
    have hdir : DIR_BYTES = 1048576 := rfl
    refine (dir_byte ?_).symm
    split at hlooked <;> omega
  exact ⟨sameAt_congr hsame, (entry_congr hsame).1⟩

/-- **THE NUMBER** that is found is the one in the map. -/
theorem search_run (hfits : Fits sb) (h : Inv sb live s)
    (hnames : Names (imageIn sb s) files) (hnul : 0 ∉ path)
    (hname : getFileName path = some name) (hne : name ≠ []) :
    ∃ u, getFileInodeNr path s = .ok (numberIn (files name)) u := by
  obtain ⟨u, hu⟩ := search_image hfits h hnul hname hne
  obtain ⟨hnul', hlen⟩ := name_chars hnul hname
  rw [search_names hnames h.files.listed hnul' hne hlen rfl] at hu
  exact ⟨u, hu⟩

theorem numberOf_files (hfits : Fits sb) (h : Inv sb live s)
    (hnames : Names (imageIn sb s) files) (hnul : 0 ∉ path)
    (hname : getFileName path = some name) (hne : name ≠ []) :
    numberOf s path = numberIn (files name) := by
  obtain ⟨u, hu⟩ := search_run hfits h hnames hnul hname hne
  exact (KosRefusals.getFileInodeNr_number hu).symm

/-- The empty name is that of the directory. -/
theorem numberOf_empty (h : Inv sb live s) (hname : getFileName path = some []) :
    numberOf s path = 1 := by
  obtain ⟨hroot, -, -⟩ := root_facts h
  rw [numberOf, hname]
  exact hroot.nr

/-- The numbers of the map are live, and not 0. -/
theorem live_of_file (h : Inv sb live s) (hnames : Names (imageIn sb s) files)
    (hfile : files name = some n) : n ∈ live ∧ n ≠ 0 := by
  obtain ⟨k, hk, hslot⟩ := (hnames.table.holds name n).mp hfile
  obtain ⟨hused, -, hn⟩ := slotAt_some hslot
  obtain ⟨a, ha, hna⟩ := h.files.listed.live k hk hused
  rw [hna, Int.toNat_natCast] at hn
  rw [hna, show INVALID_INODE = 0 from rfl] at hused
  subst hn
  exact ⟨ha, by omega⟩

/-- **A CREATED FILE** has its name. -/
theorem names_created (hfits : Fits sb) (h : Inv sb live s)
    (hnames : Names (imageIn sb s) files) (hnr : numberOf s path = INVALID_INODE)
    (hnul : 0 ∉ path)
    (hlen : ∀ name, getFileName path = some name → name.length ≤ 11)
    (hname : getFileName path = some name) (hnew : NewFile sb s t path n) :
    Names (imageIn sb t) (Function.update files name (some n)) := by
  obtain ⟨name', β, k, free, i, hname', hroom, -, himage, -⟩ := hnew
  rw [hname] at hname'
  cases hname'
  obtain ⟨hroot, -, -⟩ := root_facts h
  have hne : name ≠ [] := by
    rintro rfl
    rw [numberOf_empty h hname] at hnr
    cases hnr
  have hfile : files name = none := by
    have hnumber := numberOf_files hfits h hnames hnul hname hne
    rw [hnr] at hnumber
    cases hv : files name with
    | none => rfl
    | some v =>
        have hv0 := (live_of_file h hnames hv).2
        rw [hv, show numberIn (some v) = v from rfl,
          show INVALID_INODE = 0 from rfl] at hnumber
        omega
  obtain ⟨hb0, -, -⟩ := free_pos h.files.maps hroom.inodeClear hroom.sectsClear
  rw [himage]
  exact names_withFile hnames ⟨hb0, hroom.number⟩ (name_chars hnul hname).1
    (hlen name hname) hfile hroot.stored h.files.listed.few hroom.slot

/-- When the last entry is removed, the used ones in front of it are so many
    that the directory still ends behind each of them. -/
def Covered (sb : SuperBlock) (s : Fs) (path : List Byte) : Prop :=
  ∀ k, k + 1 = entries (imageIn sb s) →
    numAt (imageIn sb s).dir k = numberOf s path →
    ∀ j < k, numAt (imageIn sb s).dir j ≠ INVALID_INODE →
      j < usedBefore (imageIn sb s).dir k

/-- The path of a number greater than 1 has a name. -/
theorem name_of_number (hfits : Fits sb) (h : Inv sb live s)
    (hnames : Names (imageIn sb s) files) (hnul : 0 ∉ path)
    (hnr : numberOf s path = n) (hn : 1 < n) :
    ∃ name, getFileName path = some name ∧ name ≠ [] ∧ files name = some n := by
  obtain ⟨name, hname⟩ : ∃ name, getFileName path = some name := by
    cases hname : getFileName path with
    | none =>
        rw [numberOf, hname, show INVALID_INODE = 0 from rfl] at hnr
        dsimp only at hnr
        omega
    | some name => exact ⟨name, rfl⟩
  have hne : name ≠ [] := by
    rintro rfl
    rw [numberOf_empty h hname] at hnr
    omega
  have hnumber := numberOf_files hfits h hnames hnul hname hne
  rw [hnr] at hnumber
  refine ⟨name, hname, hne, ?_⟩
  cases hv : files name with
  | none =>
      rw [hv, show numberIn none = 0 from rfl] at hnumber
      omega
  | some v =>
      rw [hv, show numberIn (some v) = v from rfl] at hnumber
      rw [Int.ofNat_inj.mp hnumber]

/-- **A REMOVED FILE** has none any more. -/
theorem names_removed (h : Inv sb live s) (hnames : Names (imageIn sb s) files)
    (hnr : numberOf s path = n) (hfile : files name = some n)
    (hcover : Covered sb s path) (hgone : FileGone sb s t n) :
    Names (imageIn sb t) (Function.update files name none) := by
  obtain ⟨β, k, p, hk, hnum, himage, -⟩ := hgone
  obtain ⟨hroot, -, -⟩ := root_facts h
  rw [← entries_set hroot.stored] at hk
  rw [himage]
  exact names_withoutFile hnames h.files.listed hfile hroot.stored hk hnum
    fun hlast => hcover k hlast (hnum.trans hnr.symm)

end Search

end KosDirectorySearch
