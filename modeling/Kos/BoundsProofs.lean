import Kos.FreshProofs
import Kos.RequestCountsProofs

/-! # Positions and sizes

    A position is kept with the descriptor and a size with the inode, and many
    descriptors may share an inode.

    * `Bounds` is what should hold of them in every state;
    * O_TRUNC empties a file under descriptors that are inside it (`TruncFits`),
      and a transfer may go on to the end of a chunk, which is behind the sectors
      of a full file (`TransferFits`);
    * with these left out a request keeps the bounds in the tables, if an inode
      that it reads from the disk has its size within its sectors (`inv_open`,
      `inv_lseek`, `inv_regular`). -/

namespace KosBounds

open FlatMemory (Byte)
open KosFs
open KosReadWrite
open KosOpenFile
open KosRefusals (numberOf)
open KosTables
open KosFresh
open KosRequestCounts (NumberUnused)
open KosMkfs (superBlock demoFs demoRoot)
open KosInitFs (rootInodeOf freeEntry)

/-! ## The bounds -/

/-- The size of a regular file is within its sectors. -/
def SizeFits (p : Inode) : Prop :=
  p.fileType = TYPE_REGULAR → p.fileSize.toNat ≤ 512 * p.nrSects.toNat

/-- The position is in the file, and the file in its sectors. -/
structure Bounds (s : Fs) : Prop where
  position : ∀ d i, (s.fileDescTable d).inode = some i →
    (s.inodeTable i).fileType = TYPE_REGULAR →
    0 ≤ (s.fileDescTable d).pos ∧
      (s.fileDescTable d).pos ≤ (s.inodeTable i).fileSize.toNat
  size : ∀ i, SizeFits (s.inodeTable i)

/-! ## The condition -/

/-- No descriptor of the inode has been moved. -/
def AtStart (s : Fs) (i : Fin NR_INODE) : Prop :=
  ∀ d, (s.fileDescTable d).inode = some i → (s.fileDescTable d).pos = 0

/-- A file is emptied only while its descriptors are at its start. -/
def TruncFits (s : Fs) (path : List Byte) (flags : BitVec 32) : Prop :=
  flags &&& O_TRUNC ≠ 0 → ∀ i,
    s.cached (s.inodeTable s.rootInode).dev (numberOf s path) = some i →
    (s.inodeTable i).fileType = TYPE_REGULAR → AtStart s i

/-- An inode that the path has and that is not in the table is one on the disk. -/
def LoadFits (s : Fs) (path : List Byte) : Prop :=
  ∀ sb, s.cached (s.inodeTable s.rootInode).dev (numberOf s path) = none →
    s.superOf (s.inodeTable s.rootInode).dev = some sb →
    SizeFits (diskInode (s.disk (s.inodeTable s.rootInode).dev) sb
      (s.inodeTable s.rootInode).dev (numberOf s path))

/-- A transfer ends within the sectors of the file, or it is one from a file
    that does not fill them. -/
def TransferFits (io : Io) (p : Inode) (pos len : Int) : Prop :=
  pos + len ≤ 512 * p.nrSects.toNat ∨
    io = .read ∧ p.fileSize.toNat < 512 * p.nrSects.toNat ∧
      p.nrSects.toNat ≤ 2048

/-! ## The invariant -/

/-- The bounds, and what a free entry of `inode_table` and the root directory
    are. -/
structure Inv (s : Fs) : Prop where
  bounds : Bounds s
  held : ∀ d i, (s.fileDescTable d).inode = some i → (s.inodeTable i).cnt ≠ 0
  counts : ∀ i, 0 ≤ (s.inodeTable i).cnt
  rootHeld : (s.inodeTable s.rootInode).cnt ≠ 0
  rootType : (s.inodeTable s.rootInode).fileType ≠ TYPE_REGULAR

section Inv

variable {s t : Fs} {i : Fin NR_INODE} {d : Fin NR_FILE_DESC} {pos : Int}

theorem inv_congr (h : SameTables s t) (hs : Inv s) : Inv t := by
  refine ⟨⟨?_, ?_⟩, ?_, ?_, ?_, ?_⟩
  · rw [h.inodes, h.descs]
    exact hs.bounds.position
  · rw [h.inodes]
    exact hs.bounds.size
  · rw [h.inodes, h.descs]
    exact hs.held
  · rw [h.inodes]
    exact hs.counts
  · rw [h.inodes, h.root]
    exact hs.rootHeld
  · rw [h.inodes, h.root]
    exact hs.rootType

/-- An inode that its descriptors fit takes the place of another. -/
theorem inv_inode (hs : Inv s) {q : Inode} (hcnt : 0 < q.cnt)
    (hfits : SizeFits q)
    (hpos : q.fileType = TYPE_REGULAR → ∀ d,
      (s.fileDescTable d).inode = some i → 0 ≤ (s.fileDescTable d).pos ∧
        (s.fileDescTable d).pos ≤ q.fileSize.toNat)
    (hroot : i = s.rootInode → q.fileType ≠ TYPE_REGULAR) :
    Inv (s.updInode i fun _ => q) := by
  have hnew : (s.updInode i fun _ => q).inodeTable i = q := updInode_self ..
  have hother : ∀ j, j ≠ i → (s.updInode i fun _ => q).inodeTable j =
      s.inodeTable j := fun j hj => updInode_of_ne _ _ hj
  -- what holds of the new inode and of the others holds of all
  have hall : ∀ P : Fin NR_INODE → Inode → Prop, P i q →
      (∀ j, j ≠ i → P j (s.inodeTable j)) →
      ∀ j, P j ((s.updInode i fun _ => q).inodeTable j) := by
    intro P hi hj j
    by_cases h : j = i
    · subst h
      rwa [hnew]
    · rw [hother j h]
      exact hj j h
  refine ⟨⟨fun d j hd => ?_, ?_⟩, fun d j _ => ?_, ?_, ?_, ?_⟩
  · refine hall (fun j p => (s.fileDescTable d).inode = some j →
      p.fileType = TYPE_REGULAR → 0 ≤ (s.fileDescTable d).pos ∧
        (s.fileDescTable d).pos ≤ p.fileSize.toNat) (fun hd ht => hpos ht d hd)
      (fun j _ hd => hs.bounds.position d j hd) j hd
  · exact hall (fun _ p => SizeFits p) hfits fun j _ => hs.bounds.size j
  · refine hall (fun j p => (s.fileDescTable d).inode = some j → p.cnt ≠ 0)
      (fun _ => by omega) (fun j _ hd => hs.held d j hd) j ?_
    assumption
  · exact hall (fun _ p => 0 ≤ p.cnt) (by omega) fun j _ => hs.counts j
  · exact hall (fun j p => j = s.rootInode → p.cnt ≠ 0) (fun _ => by omega)
      (fun j _ hj => by rw [hj]; exact hs.rootHeld) s.rootInode rfl
  · exact hall (fun j p => j = s.rootInode → p.fileType ≠ TYPE_REGULAR) hroot
      (fun j _ hj => by rw [hj]; exact hs.rootType) s.rootInode rfl

/-- A descriptor is moved inside the file. -/
theorem inv_position (hs : Inv s)
    (hpos : ∀ i, (s.fileDescTable d).inode = some i →
      (s.inodeTable i).fileType = TYPE_REGULAR →
      0 ≤ pos ∧ pos ≤ (s.inodeTable i).fileSize.toNat) :
    Inv (s.updDesc d fun f => { f with pos := pos }) := by
  obtain ⟨u, hu⟩ : ∃ u, u = s.updDesc d fun f => { f with pos := pos } :=
    ⟨_, rfl⟩
  have hself : u.fileDescTable d = { s.fileDescTable d with pos := pos } := by
    rw [hu, updDesc_self]
  have hother : ∀ e, e ≠ d → u.fileDescTable e = s.fileDescTable e := by
    intro e he
    rw [hu, updDesc_of_ne _ _ he]
  have hinode : ∀ e, (u.fileDescTable e).inode = (s.fileDescTable e).inode := by
    intro e
    by_cases he : e = d
    · rw [he, hself]
    · rw [hother e he]
  have htable : u.inodeTable = s.inodeTable := by rw [hu]; rfl
  have hroot : u.rootInode = s.rootInode := by rw [hu]; rfl
  rw [← hu]
  refine ⟨⟨fun e j he ht => ?_, ?_⟩, fun e j he => ?_, ?_, ?_, ?_⟩
  · rw [hinode] at he
    rw [htable] at ht ⊢
    by_cases hed : e = d
    · rw [hed, hself]
      rw [hed] at he
      exact hpos j he ht
    · rw [hother e hed]
      exact hs.bounds.position e j he ht
  · rw [htable]
    exact hs.bounds.size
  · rw [hinode] at he
    rw [htable]
    exact hs.held e j he
  · rw [htable]
    exact hs.counts
  · rw [htable, hroot]
    exact hs.rootHeld
  · rw [htable, hroot]
    exact hs.rootType

/-- A new descriptor of an inode in use is at its start. -/
theorem inv_connect (hs : Inv s) (hcnt : (s.inodeTable i).cnt ≠ 0) (pid : Int)
    (fd : Fin NR_FILES) (flags : BitVec 32) :
    Inv (connect s pid fd d i flags) := by
  have hself : (connect s pid fd d i flags).fileDescTable d =
      { mode := flags, pos := 0, cnt := 1, inode := some i } :=
    Function.update_self ..
  have hother : ∀ e, e ≠ d → (connect s pid fd d i flags).fileDescTable e =
      s.fileDescTable e := fun e he => Function.update_of_ne he ..
  refine ⟨⟨fun e j he ht => ?_, hs.bounds.size⟩, fun e j he => ?_, hs.counts,
    hs.rootHeld, hs.rootType⟩
  · by_cases hed : e = d
    · rw [hed, hself]
      exact ⟨Int.le_refl 0, Int.natCast_nonneg _⟩
    · rw [hother e hed] at he ⊢
      exact hs.bounds.position e j he ht
  · by_cases hed : e = d
    · rw [hed, hself] at he
      cases he
      exact hcnt
    · rw [hother e hed] at he
      exact hs.held e j he

end Inv

/-! ## One request -/

section Step

variable {s t w : Fs} {i : Fin NR_INODE} {d : Fin NR_FILE_DESC}
  {flags : BitVec 32} {path : List Byte}

/-- An entry that is taken for an inode from the disk is in nobody's use. -/
theorem free_unused (hs : Inv s) (h : s.freeInode = some i) :
    i ≠ s.rootInode ∧ ∀ d, (s.fileDescTable d).inode ≠ some i := by
  have hfound := List.find?_some h
  have hzero : (s.inodeTable i).cnt = 0 := of_decide_eq_true hfound
  constructor
  · rintro rfl
    exact hs.rootHeld hzero
  · exact fun d hd => hs.held d i hd hzero

/-- The inode, empty if O_TRUNC says so. -/
def cut (flags : BitVec 32) (p : Inode) : Inode :=
  if flags &&& O_TRUNC = 0 then p else { p with fileSize := 0 }

theorem cut_type (flags : BitVec 32) (p : Inode) :
    (cut flags p).fileType = p.fileType ∧ (cut flags p).cnt = p.cnt := by
  rw [cut]
  split
  · exact ⟨rfl, rfl⟩
  · exact ⟨rfl, rfl⟩

theorem truncated_eq (flags : BitVec 32) (i : Fin NR_INODE) (s : Fs) :
    truncated flags i s = s.updInode i fun _ => cut flags (s.inodeTable i) := by
  rw [truncated, cut]
  split
  · rw [Fs.updInode, Function.update_eq_self]
  · rfl

theorem truncated_updInode (flags : BitVec 32) (i : Fin NR_INODE) (s : Fs)
    (f : Inode → Inode) : truncated flags i (s.updInode i f) =
      s.updInode i fun _ => cut flags (f (s.inodeTable i)) := by
  rw [truncated_eq, updInode_self, Fs.updInode, Fs.updInode, Fs.updInode,
    Function.update_idem]

/-- A file that exists, whose inode is in the table. -/
theorem inv_cached (hs : Inv s)
    (htrunc : (s.inodeTable i).fileType = TYPE_REGULAR →
      flags &&& O_TRUNC ≠ 0 → AtStart s i) :
    Inv (s.updInode i fun _ => cut flags
      { s.inodeTable i with cnt := (s.inodeTable i).cnt + 1 }) := by
  obtain ⟨q, hq⟩ : ∃ q, q = { s.inodeTable i with
    cnt := (s.inodeTable i).cnt + 1 } := ⟨_, rfl⟩
  have hcount := hs.counts i
  have hcnt : q.cnt = (s.inodeTable i).cnt + 1 := by rw [hq]
  have htype : q.fileType = (s.inodeTable i).fileType := by rw [hq]
  obtain ⟨htypeCut, hcntCut⟩ := cut_type flags q
  rw [← hq]
  by_cases hflags : flags &&& O_TRUNC = 0
  · have hcut : cut flags q = q := by rw [cut, if_pos hflags]
    rw [hcut]
    refine inv_inode hs (by omega) ?_ (fun ht d hd => ?_) fun hroot => ?_
    · rw [hq]
      exact hs.bounds.size i
    · have hpos := hs.bounds.position d i hd (htype.symm.trans ht)
      rwa [hq]
    · rw [htype, hroot]
      exact hs.rootType
  · have hcut : (cut flags q).fileSize = 0 := by rw [cut, if_neg hflags]
    refine inv_inode hs (by omega) (fun _ => ?_) (fun ht d hd => ?_)
      fun hroot => ?_
    · rw [hcut]
      exact Nat.zero_le _
    · rw [htypeCut, htype] at ht
      rw [htrunc ht hflags d hd, hcut]
      exact ⟨Int.le_refl 0, Int.le_refl 0⟩
    · rw [htypeCut, htype, hroot]
      exact hs.rootType

/-- One whose inode is read from the disk. -/
theorem inv_loaded (hs : Inv s) {q : Inode} (hfree : s.freeInode = some i)
    (hcnt : q.cnt = 1) (hsize : flags &&& O_TRUNC = 0 → SizeFits q) :
    Inv (s.updInode i fun _ => cut flags q) := by
  obtain ⟨hne, hnone⟩ := free_unused hs hfree
  obtain ⟨-, hcntCut⟩ := cut_type flags q
  refine inv_inode hs (by omega) ?_ (fun _ d hd => absurd hd (hnone d))
    fun h => absurd h hne
  by_cases hflags : flags &&& O_TRUNC = 0
  · rw [cut, if_pos hflags]
    exact hsize hflags
  · rw [cut, if_neg hflags]
    exact fun _ => Nat.zero_le _

/-- A new file, in an entry that is free; then the directory may grow. -/
theorem inv_created (hs : Inv s) (dev start : Int) (b : Nat) (free : Bool)
    (hfree : s.freeInode = some i) :
    Inv (truncated flags i ((s.updInode i fun _ =>
      newInode dev b start).updInode s.rootInode (grown free))) := by
  obtain ⟨hne, hnone⟩ := free_unused hs hfree
  obtain ⟨q, hq⟩ : ∃ q, q = newInode dev b start := ⟨_, rfl⟩
  have hsize : q.fileSize = 0 := by rw [hq]; rfl
  have hcnt : q.cnt = 1 := by rw [hq]; rfl
  obtain ⟨u, hu⟩ : ∃ u, u = s.updInode i fun _ => q := ⟨_, rfl⟩
  have hinv : Inv u := by
    rw [hu]
    refine inv_inode hs (by omega) (fun _ => ?_) (fun _ d hd => absurd hd (hnone d))
      fun h => absurd h hne
    rw [hsize]
    exact Nat.zero_le _
  obtain ⟨v, hv⟩ : ∃ v, v = u.updInode s.rootInode (grown free) := ⟨_, rfl⟩
  have hroot : u.rootInode = s.rootInode := by rw [hu]; rfl
  have hgrown : Inv v := by
    have hrest : (grown free (u.inodeTable s.rootInode)).fileType ≠
          TYPE_REGULAR ∧
        0 < (grown free (u.inodeTable s.rootInode)).cnt := by
      have htype := hinv.rootType
      have hheld := hinv.rootHeld
      have hcount := hinv.counts s.rootInode
      rw [hroot] at htype hheld
      rw [grown]
      split
      · exact ⟨htype, by omega⟩
      · exact ⟨htype, by dsimp only; omega⟩
    rw [hv]
    show Inv (u.updInode s.rootInode fun _ =>
      grown free (u.inodeTable s.rootInode))
    exact inv_inode hinv hrest.2 (fun ht => absurd ht hrest.1)
      (fun ht => absurd ht hrest.1) fun _ => hrest.1
  have hself : v.inodeTable i = q := by
    rw [hv, updInode_of_ne _ _ hne, hu, updInode_self]
  have hdescs : v.fileDescTable = s.fileDescTable := by rw [hv, hu]; rfl
  rw [← hq, ← hu, ← hv, truncated_eq, hself]
  have hcut : cut flags q = q := by
    rw [cut]
    split
    · rfl
    · rw [hq]
      rfl
  rw [hcut]
  refine inv_inode hgrown (by omega) (fun _ => ?_) (fun _ d hd => ?_) fun h => ?_
  · rw [hsize]
    exact Nat.zero_le _
  · rw [hdescs] at hd
    exact absurd hd (hnone d)
  · rw [hv] at h
    exact absurd (h.trans hroot) hne

/-- The inode that is found or made fits the descriptors it has. -/
theorem inv_located (hs : Inv s) (hnew : NumberUnused s path flags)
    (hold : numberOf s path ≠ INVALID_INODE → flags &&& O_RDWR ≠ 0 →
      TruncFits s path flags ∧ LoadFits s path)
    (h : Located s path flags i w) : Inv (truncated flags i w) := by
  cases h with
  | existing hnr hflags hobt =>
      obtain ⟨htrunc, hload⟩ := hold hnr hflags
      cases hobt with
      | cached hc =>
          rw [truncated_updInode]
          exact inv_cached hs fun hreg hcut => htrunc hcut i hc hreg
      | loaded sb hc hfree hsb =>
          rw [truncated_updInode]
          exact inv_loaded hs hfree rfl fun _ => hload sb hc hsb
  | created start free hnr hflags hfirst hb hentry =>
      have hunused := hnew hnr hflags _ hfirst
      refine inv_created hs _ _ _ _ (hentry.resolve_left fun hc => ?_).2
      rw [hunused] at hc
      cases hc

theorem located_cnt (hs : Inv s) (h : Located s path flags i w) :
    ((truncated flags i w).inodeTable i).cnt ≠ 0 := by
  rw [truncated_eq, updInode_self, (cut_type _ _).2]
  cases h with
  | existing hnr hflags hobt =>
      have hcount := hs.counts i
      cases hobt with
      | cached hc =>
          rw [updInode_self]
          dsimp only
          omega
      | loaded sb hc hfree hsb =>
          rw [updInode_self]
          exact (by decide : (1 : Int) ≠ 0)
  | created start free hnr hflags hfirst hb hentry =>
      by_cases hi : i = s.rootInode
      · subst hi
        rw [updInode_self, updInode_self, grown]
        split <;> exact (by decide : (1 : Int) ≠ 0)
      · rw [updInode_of_ne _ _ hi, updInode_self]
        exact (by decide : (1 : Int) ≠ 0)

/-- **`do_open`** keeps the invariant. -/
theorem inv_open (hs : Inv s) {pid ret : Int} {pathname : List Byte}
    (hnew : NumberUnused s (pathname.takeWhile (· ≠ 0)) flags)
    (hold : numberOf s (pathname.takeWhile (· ≠ 0)) ≠ INVALID_INODE →
      flags &&& O_RDWR ≠ 0 → TruncFits s (pathname.takeWhile (· ≠ 0)) flags ∧
        LoadFits s (pathname.takeWhile (· ≠ 0)))
    (h : doOpen pid pathname flags s = .ok ret t) : Inv t := by
  rcases doOpen_tables h with ⟨-, hsame⟩ | ⟨fd, d, i, w, -, -, -, hloc, hsame⟩
  · exact inv_congr hsame hs
  · exact inv_congr hsame (inv_connect (inv_located hs hnew hold hloc)
      (located_cnt hs hloc) pid fd flags)

/-- **`do_lseek`** keeps the invariant. -/
theorem inv_lseek (hs : Inv s) {pid fd off whence ret : Int}
    (h : doLseek pid fd off whence s = .ok ret t) : Inv t := by
  rcases doLseek_tables h with rfl | ⟨d, i, pos, ⟨-, hi⟩, h0, hle, rfl⟩
  · exact hs
  · refine inv_position hs fun j hj _ => ⟨h0, ?_⟩
    cases hi.symm.trans hj
    have hint := BitVec.toInt_eq_toNat_cond (s.inodeTable i).fileSize
    split at hint <;> omega

/-- From a sector with a place on the disk sectors are counted as usual. -/
theorem rwSect_add {p : Inode} {q r : Nat} (hq : q < 2147483648)
    (hr : r < 2147483648) (h : Addressed (rwSect p q)) :
    rwSect p r = rwSect p q + ((r / 512 : Nat) - (q / 512 : Nat) : Int) := by
  have hnat : ∀ n : Nat, n < 2147483648 →
      (p.sectStart + BitVec.ofInt 32 ((n : Int) / 512)).toNat =
        (p.sectStart.toNat + n / 512) % 4294967296 := by
    intro n hn
    rw [show (n : Int) / 512 = (n / 512 : Nat) by omega, BitVec.ofInt_natCast,
      BitVec.toNat_add, BitVec.toNat_ofNat, Nat.add_mod_mod]
  obtain ⟨h0, hlt⟩ := h
  rw [rwSect, BitVec.toInt_eq_toNat_cond, hnat q hq] at h0 hlt
  rw [rwSect, rwSect, BitVec.toInt_eq_toNat_cond, BitVec.toInt_eq_toNat_cond,
    hnat q hq, hnat r hr]
  split at h0 <;> split <;> omega

/-- **THE END OF A TRANSFER** that meets the condition is within the sectors
    of the file. -/
theorem transfer_bound {io : Io} {p : Inode} {pos len : Nat} {n : Nat}
    {lo hi chunk : Int} (hint : pos + len < 2147483648)
    (hsize : p.fileSize.toNat ≤ 512 * p.nrSects.toNat)
    (hpos : pos ≤ p.fileSize.toNat) (hfits : TransferFits io p pos len)
    (hlo : lo = rwSect p pos)
    (hhi : hi = rwSect p (posEnd io p ((pos : Int) + len)))
    (hchunk : chunk = min (hi - lo + 1) 2048)
    (hmoved : n = 0 ∨ Addressed lo ∧ lo ≤ hi ∧ (n : Int) ≤ len ∧
      ∃ k : Nat, lo + k * chunk ≤ hi ∧
        (pos : Int).tmod 512 + n ≤ (k * chunk + chunk) * 512) :
    pos + n ≤ 512 * p.nrSects.toNat := by
  rcases hmoved with rfl | ⟨haddr, hle, hn, k, hk, hmoved⟩
  · omega
  rcases hfits with hin | ⟨rfl, hnotfull, hsects⟩
  · omega
  obtain ⟨E, hE⟩ : ∃ E, E = min (pos + len) p.fileSize.toNat := ⟨_, rfl⟩
  have hend : posEnd .read p ((pos : Int) + len) = (E : Nat) := by
    rw [← Int.natCast_add, posEnd_eq hint, hE]
    rfl
  rw [hend] at hhi
  rw [hlo] at haddr
  have hrange := rwSect_add (show pos < 2147483648 by omega)
    (show E < 2147483648 by omega) haddr
  rw [← hlo, ← hhi] at hrange
  -- the file does not fill its sectors: the last one looked at is one of them
  have hlast : E / 512 < p.nrSects.toNat := by omega
  have hone : chunk = hi - lo + 1 := by omega
  have hk0 : (k : Int) * chunk = 0 := by
    rcases Nat.eq_zero_or_pos k with rfl | hkpos
    · omega
    · have hmul : 1 * chunk ≤ k * chunk :=
        Int.mul_le_mul_of_nonneg_right (by omega) (by omega)
      omega
  have hoff : (pos : Int).tmod 512 = (pos % 512 : Nat) := by
    rw [Int.tmod_eq_emod_of_nonneg (by omega)]
    omega
  rw [hk0, hoff] at hmoved
  omega

/-- A file that ends at the position, if that is behind its end. -/
def reached (pos : Int) (p : Inode) : Inode :=
  if p.fileSize < BitVec.ofInt 32 pos then
    { p with fileSize := BitVec.ofInt 32 pos }
  else p

theorem reached_same (pos : Int) (p : Inode) :
    (reached pos p).fileType = p.fileType ∧ (reached pos p).cnt = p.cnt ∧
      (reached pos p).nrSects = p.nrSects := by
  rw [reached]
  split <;> exact ⟨rfl, rfl, rfl⟩

theorem reached_size {pos : Nat} (h : pos < 2147483648) (p : Inode) :
    (reached pos p).fileSize.toNat = max p.fileSize.toNat pos := by
  have hnat : (BitVec.ofInt 32 (pos : Int)).toNat = pos := by
    rw [BitVec.ofInt_natCast, BitVec.toNat_ofNat, Nat.mod_eq_of_lt (by omega)]
  rw [reached]
  split
  · rename_i hlt
    rw [BitVec.lt_def, hnat] at hlt
    rw [hnat]
    omega
  · rename_i hlt
    rw [BitVec.lt_def, hnat] at hlt
    omega

/-- The tables after a transfer of `n` bytes. -/
theorem extended_advanced {pos : Int} (hpos : (s.fileDescTable d).pos = pos)
    (n : Nat) :
    SameTables ((s.updInode i fun _ => reached (pos + n) (s.inodeTable i)).updDesc
      d fun f => { f with pos := pos + n }) (extended i d (advanced d n s)) := by
  have hadv : ((advanced d n s).fileDescTable d).pos = pos + n := by
    rw [advanced, updDesc_self, hpos]
  have hdescs : (s.updDesc d fun f => { f with pos := f.pos + n }) =
      s.updDesc d fun f => { f with pos := pos + n } := by
    rw [Fs.updDesc, Fs.updDesc, hpos]
  have hinode : ∀ f, (s.updDesc d f).inodeTable i = s.inodeTable i :=
    fun _ => rfl
  rw [extended, hadv, advanced, hdescs, hinode, reached]
  split
  · exact ⟨rfl, rfl, rfl, rfl, rfl⟩
  · refine ⟨?_, rfl, rfl, rfl, rfl⟩
    exact (Function.update_eq_self ..).symm

/-- **A TRANSFER** keeps the invariant. -/
theorem inv_regular (hs : Inv s) {io : Io} {len : Int} {buf : Nat → Byte}
    {r : Int × (Nat → Byte)} (hi : (s.fileDescTable d).inode = some i)
    (hlen : 0 ≤ len)
    (hfits : (s.inodeTable i).fileType = TYPE_REGULAR →
      TransferFits io (s.inodeTable i) (s.fileDescTable d).pos len)
    (h : doReadWriteRegular io i d len buf s = .ok r t) : Inv t := by
  obtain ⟨p, hp⟩ : ∃ p, s.inodeTable i = p := ⟨_, rfl⟩
  obtain ⟨pos, hpos⟩ : ∃ pos, (s.fileDescTable d).pos = pos := ⟨_, rfl⟩
  obtain ⟨hint, n, lo, hi', chunk, hsame, hlo, hhi, hchunk, hmoved⟩ :=
    regular_tables hp hpos h
  obtain ⟨htype, hcnt, hsects⟩ := reached_same (pos + n) p
  refine inv_congr (same_trans (extended_advanced hpos n) hsame) ?_
  rw [hp]
  -- only regular files have bounds; for the others the counts are left
  by_cases hreg : p.fileType = TYPE_REGULAR
  · have hbounds := hs.bounds.position d i hi (by rw [hp]; exact hreg)
    have hsize := hs.bounds.size i (by rw [hp]; exact hreg)
    have hfit := hfits (by rw [hp]; exact hreg)
    rw [hp, hpos] at hbounds hfit
    rw [hp] at hsize
    obtain ⟨m, rfl⟩ := Int.eq_ofNat_of_zero_le hbounds.1
    obtain ⟨l, rfl⟩ := Int.eq_ofNat_of_zero_le hlen
    have hn : n ≤ l := by omega
    have hend := transfer_bound (by omega) hsize (by omega) hfit hlo hhi hchunk
      hmoved
    have hreached := reached_size (show m + n < 2147483648 by omega) p
    rw [Int.natCast_add] at hreached
    refine inv_position (inv_inode hs ?_ (fun _ => ?_) (fun _ e he => ?_)
      fun hroot => ?_) fun j hj _ => ?_
    · have hcount := hs.counts i
      have hheld := hs.held d i hi
      rw [hp] at hcount hheld
      omega
    · rw [hreached, hsects]
      omega
    · have hother := hs.bounds.position e i he (by rw [hp]; exact hreg)
      rw [hp] at hother
      rw [hreached]
      omega
    · have hdir := hs.rootType
      rw [← hroot, hp] at hdir
      exact absurd hreg hdir
    · cases hi.symm.trans hj
      rw [updInode_self, hreached]
      omega
  · refine inv_position (inv_inode hs ?_ (fun ht => ?_) (fun ht _ _ => ?_)
      fun _ => ?_) fun j hj ht => ?_
    · have hcount := hs.counts i
      have hheld := hs.held d i hi
      rw [hp] at hcount hheld
      omega
    · exact absurd (htype.symm.trans ht) hreg
    · exact absurd (htype.symm.trans ht) hreg
    · rw [htype]
      exact hreg
    · cases hi.symm.trans hj
      rw [updInode_self, htype] at ht
      exact absurd ht hreg

/-- A new file system has one inode in its table, that of a directory. -/
theorem inv_fresh (h : Fresh s) : Inv s := by
  obtain ⟨sectCnt, htable, hdescs⟩ := fresh_tables h
  have hroot : s.inodeTable s.rootInode =
      rootInodeOf (superBlock sectCnt ROOT_DEV_NR) := by
    rw [htable, Function.update_self]
  have hother : ∀ i, i ≠ s.rootInode → s.inodeTable i = freeEntry := by
    intro i hi
    rw [htable, Function.update_of_ne hi]
  have hnone : ∀ d i, (s.fileDescTable d).inode ≠ some i := by
    intro d i hd
    rw [hdescs] at hd
    cases hd
  have hall : ∀ P : Inode → Prop,
      P (rootInodeOf (superBlock sectCnt ROOT_DEV_NR)) → P freeEntry →
      ∀ i, P (s.inodeTable i) := by
    intro P hr hf i
    by_cases hi : i = s.rootInode
    · rw [hi, hroot]
      exact hr
    · rw [hother i hi]
      exact hf
  refine ⟨⟨fun d i hd => absurd hd (hnone d i), ?_⟩,
    fun d i hd => absurd hd (hnone d i), ?_, ?_, ?_⟩
  · exact hall SizeFits (fun ht => absurd ht (by decide : TYPE_DIRECTORY ≠ _))
      fun ht => absurd ht (by decide : (0 : BitVec 32) ≠ _)
  · exact hall (fun p => 0 ≤ p.cnt) (by decide : (0 : Int) ≤ 1) (Int.le_refl 0)
  · rw [hroot]
    exact (by decide : (1 : Int) ≠ 0)
  · rw [hroot]
    exact (by decide : TYPE_DIRECTORY ≠ TYPE_REGULAR)

end Step

/-- A disk with nothing on it. -/
def blankFs : Fs := demoFs (fun _ => 0) (demoRoot 0)

end KosBounds
