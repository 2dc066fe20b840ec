import Kos.MkfsProofs

/-! # The inode array

    `write_inode` and `get_file_inode` find the sector and the place of an
    inode in it by the same arithmetic.

    * On a partition that `mkfs` has made inodes are 32 bytes apart
      (`entryByte_eq`);
    * an inode that was written is read back, and nothing else on the devices
      changes (`write_then_get`). -/

namespace KosInodeArray

open FlatMemory (Byte)
open Overlay
open KosFs
open KosMkfs

section Place

variable {sb : SuperBlock} {nr : Nat} {p : Inode} {f f' : Nat → Byte}

theorem inodeSector_eq (hm : Made sb) (h1 : 1 ≤ nr) (h2 : nr ≤ 4096) :
    inodeSector sb nr =
      ((3 + sb.nrSectMapSects.toNat + (nr - 1) / 16 : Nat) : Int) := by
  have hsmap := hm.smap
  have hdiv : ((nr : Int) - 1).tdiv 16 = ((nr - 1) / 16 : Nat) := by
    rw [Int.tdiv_eq_ediv_of_nonneg (by omega)]
    omega
  have hnat : (2 + 1 + sb.nrSectMapSects +
      BitVec.ofNat 32 ((nr - 1) / 16)).toNat =
        3 + sb.nrSectMapSects.toNat + (nr - 1) / 16 := by
    have h3 : ((2 : BitVec 32) + 1).toNat = 3 := by decide
    rw [BitVec.toNat_add, BitVec.toNat_add, BitVec.toNat_ofNat, h3]
    omega
  rw [inodeSector, hm.imap, hdiv, BitVec.ofInt_natCast,
    BitVec.toInt_eq_toNat_of_lt, hnat]
  rw [hnat]
  omega

/-- Inodes are 32 bytes apart. -/
theorem entryByte_eq (hm : Made sb) (h1 : 1 ≤ nr) (h2 : nr ≤ 4096) :
    entryByte sb nr = arrayByte sb + 32 * (nr - 1) := by
  have hmod : ((nr : Int) - 1).tmod 16 = ((nr - 1) % 16 : Nat) := by
    rw [Int.tmod_eq_emod_of_nonneg (by omega)]
    omega
  rw [entryByte, inodeSector_eq hm h1 h2, hmod, arrayByte]
  omega

theorem stored_of_made (hm : Made sb) (h1 : 1 ≤ nr) (h2 : nr ≤ 4096) :
    Stored sb nr := by
  have hsmap := hm.smap
  refine ⟨?_, ?_⟩
  · rw [inodeSector_eq hm h1 h2]
    exact ⟨by omega, by omega⟩
  · rw [Int.tmod_eq_emod_of_nonneg (by omega)]
    omega

theorem diskInode_congr {dev : Int}
    (h : ∀ k < 16, f' (entryByte sb nr + k) = f (entryByte sb nr + k)) :
    diskInode f' sb dev nr = diskInode f sb dev nr := by
  have hword : ∀ o, o ≤ 12 →
      word f' (entryByte sb nr + o) = word f (entryByte sb nr + o) := by
    intro o ho
    refine word_congr fun k hk => ?_
    rw [Nat.add_assoc]
    exact h _ (by omega)
  have h0 := hword 0 (by omega)
  rw [Nat.add_zero] at h0
  rw [diskInode, diskInode, h0, hword 4 (by omega), hword 8 (by omega),
    hword 12 (by omega)]

variable (sb nr p f) in
/-- The inode that was written. -/
theorem diskInode_put {dev : Int} :
    let q := diskInode (put f (entryByte sb nr) 16 (entryOf p)) sb dev nr
    q.fileType = p.fileType ∧ q.fileSize = p.fileSize ∧
      q.sectStart = p.sectStart ∧ q.nrSects = p.nrSects := by
  have hword : ∀ o (v : BitVec 32), o ≤ 12 →
      (∀ k < 4, entryOf p (o + k) = bytesOf v k) →
      word (put f (entryByte sb nr) 16 (entryOf p)) (entryByte sb nr + o) =
        v := by
    intro o v ho hv
    rw [← word_bytesOf v]
    refine word_congr fun k hk => ?_
    rw [Nat.add_assoc, put_at (by omega), hv k hk, Nat.zero_add]
  have hfield : ∀ o, o % 4 = 0 → ∀ k < 4, entryOf p (o + k) =
      bytesOf (if o < 4 then p.fileType else if o < 8 then p.fileSize
        else if o < 12 then p.sectStart else p.nrSects) k := by
    intro o ho k hk
    have hlt : ∀ c, c % 4 = 0 → (o + k < c ↔ o < c) := by
      intro c hc
      omega
    rw [entryOf, show (o + k) % 4 = k by omega]
    simp only [hlt 4 rfl, hlt 8 rfl, hlt 12 rfl]
  have h0 := hword 0 _ (by omega) (hfield 0 rfl)
  rw [Nat.add_zero] at h0
  exact ⟨h0, hword 4 _ (by omega) (hfield 4 rfl),
    hword 8 _ (by omega) (hfield 8 rfl), hword 12 _ (by omega) (hfield 12 rfl)⟩

end Place

/-! ## What is read back -/

/-- The same type, size, first sector and number of sectors. -/
def SameFields (p q : Inode) : Prop :=
  p.fileType = q.fileType ∧ p.fileSize = q.fileSize ∧
    p.sectStart = q.sectStart ∧ p.nrSects = q.nrSects

/-- With the devices and the super blocks of `s` and a table that does not
    hold the inode `nr`, `get_file_inode` reads it as `p`; a table without a
    free entry makes it panic. -/
def ReadsBack (s : Fs) (dev nr : Int) (p : Inode) : Prop :=
  ∀ t : Fs, t.disk = s.disk → t.superBlockTable = s.superBlockTable →
    t.cached dev nr = none →
    match t.freeInode with
    | some j => ∃ t', getFileInode dev nr t = .ok (some j) t' ∧
        SameFields (t'.inodeTable j) p
    | none => getFileInode dev nr t = .error .panic t

/-- Nothing but the place of the inode `nr` has changed: the fields of the
    others, the sectors of the super block and of the maps, and the data are
    as they were, and so are the other devices. -/
structure OthersKept (sb : SuperBlock) (dev : Int) (nr : Nat) (s s' : Fs) :
    Prop where
  inodes : ∀ b : Nat, 1 ≤ b → b < sb.nrInodes.toNat → b ≠ nr →
    diskInode (s'.disk dev) sb dev b = diskInode (s.disk dev) sb dev b
  front : ∀ a < arrayByte sb, s'.disk dev a = s.disk dev a
  data : ∀ a, dirByte sb ≤ a → s'.disk dev a = s.disk dev a
  devices : ∀ d, d ≠ dev → s'.disk d = s.disk d

section ReadingBack

variable {sb : SuperBlock} {s t : Fs} {i j : Fin NR_INODE} {dev : Int}
  {nr : Nat} {p : Inode}

/-- An inode that is not in the table is read from the disk. -/
theorem getFileInode_load (hnr : (nr : Int) ≠ 0) (hsb : t.superOf dev = some sb)
    (hst : Stored sb nr) (hc : t.cached dev nr = none)
    (hf : t.freeInode = some j) :
    ∃ t', getFileInode dev nr t = .ok (some j) t' ∧
      t'.inodeTable j = diskInode (t.disk dev) sb dev nr := by
  obtain ⟨t', ht'⟩ : ∃ t', t' = { t.updInode j fun _ =>
      diskInode (t.disk dev) sb dev nr with
    fsbuf := put t.fsbuf 0 512
      (drop (t.disk dev) (512 * (inodeSector sb nr).toNat)) } := ⟨_, rfl⟩
  have hload : loadInode dev nr j t = .ok () t' :=
    run_loadInode.mpr ⟨sb, hsb, hst, ht'⟩
  refine ⟨t', ?_, ?_⟩
  · rw [getFileInode, if_neg hnr, run_get_bind, hc]
    simp only [hf]
    rw [run_bind_of hload]
    rfl
  · rw [ht']
    show (t.updInode j fun _ => diskInode (t.disk dev) sb dev nr).inodeTable j
      = _
    rw [updInode_self]

/-- **THE INODE ARRAY STORES INODES**: what `write_inode` writes under a number
    is what `get_file_inode` reads under it, and everything else stays. -/
theorem write_then_get {sectCnt : BitVec 32}
    (hsb : s.superOf dev = some (superBlock sectCnt dev))
    (hdev : (s.inodeTable i).dev = dev) (hnr : (s.inodeTable i).nr = nr)
    (h1 : 1 ≤ nr) (h2 : nr < (superBlock sectCnt dev).nrInodes.toNat) :
    ∃ s', writeInode i s = .ok () s' ∧
      ReadsBack s' dev nr (s.inodeTable i) ∧
      OthersKept (superBlock sectCnt dev) dev nr s s' := by
  have hm := superBlock_made sectCnt dev
  obtain ⟨sb, hsbdef⟩ : ∃ sb, sb = superBlock sectCnt dev := ⟨_, rfl⟩
  rw [← hsbdef] at hsb hm h2 ⊢
  have hlt : nr < 4096 := by
    rw [hm.inodes] at h2
    exact h2
  have hst : Stored sb nr := stored_of_made hm h1 (by omega)
  have hfirst := hm.first
  have hbyte := entryByte_eq hm h1 (show nr ≤ 4096 by omega)
  have harray : arrayByte sb = 512 * (3 + sb.nrSectMapSects.toNat) := rfl
  have hdisk : (s.written i sb).disk = Function.update s.disk dev
      (put (s.disk dev) (entryByte sb nr) 16 (entryOf (s.inodeTable i))) := by
    rw [Fs.written, hdev, hnr]
  have hself : (s.written i sb).disk dev =
      put (s.disk dev) (entryByte sb nr) 16 (entryOf (s.inodeTable i)) := by
    rw [hdisk, Function.update_self]
  refine ⟨s.written i sb, ?_, fun t htd hts hc => ?_, ?_⟩
  · refine run_writeInode.mpr ⟨sb, ?_, ?_, rfl⟩
    · rw [hdev]
      exact hsb
    · rw [hnr]
      exact hst
  · have hsb' : t.superOf dev = some sb := (superOf_congr hts).trans hsb
    cases hf : t.freeInode with
    | none =>
        rw [getFileInode, if_neg (by omega), run_get_bind, hc]
        simp only [hf]
        rfl
    | some j =>
        obtain ⟨t', hrun, hinode⟩ := getFileInode_load (by omega) hsb' hst hc hf
        refine ⟨t', hrun, ?_⟩
        rw [hinode, htd, hself]
        exact diskInode_put ..
  · refine ⟨fun b hb1 hb2 hne => ?_, fun a ha => ?_, fun a ha => ?_,
      fun d hd => ?_⟩
    · have hb : b < 4096 := by
        rw [hm.inodes] at hb2
        exact hb2
      rw [hself]
      refine diskInode_congr fun k hk => put_of_out ?_
      rw [entryByte_eq hm hb1 (by omega), hbyte]
      omega
    · rw [hself]
      exact put_of_out (by omega)
    · rw [hself]
      rw [dirByte] at ha
      exact put_of_out (by omega)
    · rw [hdisk, Function.update_of_ne hd]

end ReadingBack

/-- The last inode of the array. -/
def lastInode : Inode where
  fileType := TYPE_REGULAR
  fileSize := 5
  sectStart := 2318
  nrSects := 2048
  dev := ROOT_DEV_NR
  cnt := 1
  nr := 4095

theorem write_then_get_last :
    ∃ s', writeInode ⟨0, first_entry⟩ (demoFs (fun _ => 0) lastInode) =
        .ok () s' ∧
      ReadsBack s' ROOT_DEV_NR (4095 : Nat) lastInode ∧
      OthersKept (superBlock 40960 ROOT_DEV_NR) ROOT_DEV_NR 4095
        (demoFs (fun _ => 0) lastInode) s' :=
  write_then_get rfl rfl rfl (by decide) (by decide)

end KosInodeArray
