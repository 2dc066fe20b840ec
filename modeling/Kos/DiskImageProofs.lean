import Kos.MkfsImageProofs

/-! # The disk as the file system sees it

    An `Image` is what the sectors of the root device say: the bits of the two
    maps, the inodes, and the bytes of the root directory.  The sectors of
    other files have no part in it.

    * A write to one of the regions changes one part of the image
      (`image_inodeBit`, `image_marks`, `image_clears`, `image_inode`,
      `image_dir`), and one behind the root directory changes nothing
      (`image_behind`). -/

namespace KosDiskImage

open FlatMemory (Byte)
open Overlay
open BitMap (bit bit_byte bit_drop Marks Clears byte_of_marks byte_of_clears)
open KosFs
open KosMkfs
open KosInodeArray
open KosInodeMap (inodeMap)
open KosSectorMap (mapSize mapByte mapOf bit_mapOf)
open KosOpenFile (putEntry)
open KosInitFs (freeEntry)
open KosMkfsImage (mapByte_made)

/-- The bytes of the sectors of the root directory. -/
def DIR_BYTES : Nat := SECTOR_SIZE * NR_FILE_SECTS

/-- The disk as the file system sees it: maps, inodes and the root directory. -/
@[ext]
structure Image where
  inodeBit : Nat → Bool
  sectBit : Nat → Bool
  inode : Nat → Inode
  dir : Nat → Byte

/-- What the bytes of the root device mean.  Behind the end of a region there
    is nothing. -/
def imageOf (sb : SuperBlock) (f : Nat → Byte) : Image where
  inodeBit y := decide (y < 4096) && bit (inodeMap f) y
  sectBit y := decide (y < mapSize sb) && bit (mapOf sb f) y
  inode n :=
    if 1 ≤ n ∧ n ≤ 4096 then diskInode f sb ROOT_DEV_NR n else freeEntry
  dir a := if a < DIR_BYTES then f (dirByte sb + a) else 0

section Changes

variable (m : Image)

/-- A bit of the inode map. -/
def Image.setInodeBit (b : Nat) (v : Bool) : Image :=
  { m with inodeBit := Function.update m.inodeBit b v }

/-- The `n` sectors from the bit `b` on are taken. -/
def Image.takeSects (b n : Nat) : Image :=
  { m with sectBit := fun y => m.sectBit y || decide (b ≤ y ∧ y < b + n) }

/-- A run of sectors is free again. -/
def Image.freeSects (b n : Nat) : Image :=
  { m with sectBit := fun y => m.sectBit y && !decide (b ≤ y ∧ y < b + n) }

/-- An inode as it is read from the disk. -/
def asStored (n : Nat) (p : Inode) : Inode :=
  { p with dev := ROOT_DEV_NR, cnt := 1, nr := n }

/-- An inode is stored. -/
def Image.setInode (n : Nat) (p : Inode) : Image :=
  { m with inode := Function.update m.inode n (asStored n p) }

theorem setInode_same (n : Nat) (p : Inode) :
    (m.setInode n p).inode n = asStored n p := Function.update_self ..

theorem setInode_other {j n : Nat} (hj : j ≠ n) (p : Inode) :
    (m.setInode n p).inode j = m.inode j := Function.update_of_ne hj ..

/-- The bytes of the root directory. -/
def Image.setDir (g : Nat → Byte) : Image := { m with dir := g }

/-- A new file: the number `b`, the sectors from the bit `β` on and the inode
    `p`, the entry `k` of the directory with its name, and the inode of the
    directory. -/
def Image.withFile (b β k : Nat) (name : List Byte) (p r : Inode) : Image :=
  ((((m.setInodeBit b true).takeSects β NR_FILE_SECTS).setInode b p).setDir
    (putEntry m.dir (16 * k) b name)).setInode 1 r

/-- A new file, whatever bytes the directory has got: those of a name of twelve
    characters go on in the next entry. -/
def Image.withEntry (b β : Nat) (g : Nat → Byte) (p r : Inode) : Image :=
  ((((m.setInodeBit b true).takeSects β NR_FILE_SECTS).setInode b p).setDir
    g).setInode 1 r

theorem withFile_eq (b β k : Nat) (name : List Byte) (p r : Inode) :
    m.withFile b β k name p r =
      m.withEntry b β (putEntry m.dir (16 * k) b name) p r := rfl

/-- A file less: its number and its sectors are free, its inode and its entry are
    cleared. -/
def Image.withoutFile (b β k : Nat) (p r : Inode) : Image :=
  ((((m.setInodeBit b false).freeSects β NR_FILE_SECTS).setInode b p).setDir
    (put m.dir (16 * k) 16 fun _ => 0)).setInode 1 r

end Changes

/-! ## Regions -/

section Regions

variable {sb : SuperBlock} {f f' : Nat → Byte}

theorem byte_eq {x : Nat} (h : ∀ k < 8, bit f' (8 * x + k) = bit f (8 * x + k)) :
    f' x = f x := by
  refine BitVec.eq_of_getLsbD_eq fun k hk => ?_
  have hbit := h k hk
  rwa [bit_byte hk, bit_byte hk] at hbit

theorem inodeBit_congr (h : ∀ x, 1024 ≤ x → x < 1536 → f' x = f x) :
    (imageOf sb f').inodeBit = (imageOf sb f).inodeBit := by
  funext y
  by_cases hy : y < 4096
  · have hbyte : inodeMap f' (y / 8) = inodeMap f (y / 8) :=
      h (1024 + y / 8) (by omega) (by omega)
    show (decide _ && (inodeMap f' (y / 8)).getLsbD _) = _
    rw [hbyte]
    rfl
  · show (decide (y < 4096) && _) = (decide (y < 4096) && _)
    rw [decide_eq_false hy, Bool.false_and, Bool.false_and]

theorem sectBit_congr (hm : Made sb)
    (h : ∀ x, 1536 ≤ x → x < arrayByte sb → f' x = f x) :
    (imageOf sb f').sectBit = (imageOf sb f).sectBit := by
  funext y
  by_cases hy : y < mapSize sb
  · have hbyte : mapOf sb f' (y / 8) = mapOf sb f (y / 8) := by
      rw [mapSize] at hy
      rw [mapOf, mapOf, drop, drop, mapByte_made hm]
      refine h _ (by omega) ?_
      rw [arrayByte]
      omega
    show (decide _ && (mapOf sb f' (y / 8)).getLsbD _) = _
    rw [hbyte]
    rfl
  · show (decide (y < mapSize sb) && _) = (decide (y < mapSize sb) && _)
    rw [decide_eq_false hy, Bool.false_and, Bool.false_and]

theorem inode_congr (hm : Made sb)
    (h : ∀ x, arrayByte sb ≤ x → x < dirByte sb → f' x = f x) :
    (imageOf sb f').inode = (imageOf sb f).inode := by
  have hfirst := hm.first
  funext n
  show (if _ then _ else _) = if _ then _ else _
  by_cases hn : 1 ≤ n ∧ n ≤ 4096
  · rw [if_pos hn, if_pos hn]
    refine diskInode_congr fun k hk => ?_
    rw [entryByte_eq hm hn.1 hn.2]
    refine h _ (by omega) ?_
    rw [arrayByte, dirByte]
    omega
  · rw [if_neg hn, if_neg hn]

theorem dir_congr
    (h : ∀ x, dirByte sb ≤ x → x < dirByte sb + DIR_BYTES → f' x = f x) :
    (imageOf sb f').dir = (imageOf sb f).dir := by
  funext a
  show (if _ then _ else _) = if _ then _ else _
  by_cases ha : a < DIR_BYTES
  · rw [if_pos ha, if_pos ha]
    exact h _ (by omega) (by omega)
  · rw [if_neg ha, if_neg ha]

/-- Where the regions are. -/
theorem region_bytes (hm : Made sb) : 1536 < arrayByte sb ∧
    arrayByte sb + 131072 = dirByte sb ∧
    arrayByte sb = 1536 + 512 * sb.nrSectMapSects.toNat := by
  have hfirst := hm.first
  have hsmap := hm.smap
  rw [arrayByte, dirByte]
  omega

/-- What is behind the root directory is not in the image. -/
theorem image_behind (hm : Made sb)
    (h : ∀ x < dirByte sb + DIR_BYTES, f' x = f x) :
    imageOf sb f' = imageOf sb f := by
  obtain ⟨h₁, h₂, -⟩ := region_bytes hm
  exact Image.ext (inodeBit_congr fun x _ _ => h x (by omega))
    (sectBit_congr hm fun x _ _ => h x (by omega))
    (inode_congr hm fun x _ _ => h x (by omega))
    (dir_congr fun x _ hx => h x hx)

/-- A bit of the inode map. -/
theorem image_inodeBit (hm : Made sb) {b : Nat} {v : Bool} (hb : b < 4096)
    (h : ∀ y, bit f' y = if y = 8 * 1024 + b then v else bit f y) :
    imageOf sb f' = (imageOf sb f).setInodeBit b v := by
  obtain ⟨h₁, h₂, -⟩ := region_bytes hm
  have hout : ∀ x, x < 1024 ∨ 1536 ≤ x → f' x = f x := by
    intro x hx
    refine byte_eq fun k hk => ?_
    rw [h, if_neg (by omega)]
  refine Image.ext (funext fun y => ?_)
    (sectBit_congr hm fun x _ _ => hout x (by omega))
    (inode_congr hm fun x _ _ => hout x (by omega))
    (dir_congr fun x _ _ => hout x (by omega))
  show (decide (y < 4096) && bit (drop f' 1024) y) =
    Function.update (imageOf sb f).inodeBit b v y
  rw [bit_drop, h]
  by_cases hy : y = b
  · rw [hy, Function.update_self, if_pos rfl, decide_eq_true hb, Bool.true_and]
  · rw [Function.update_of_ne hy, if_neg (by omega), ← bit_drop]
    rfl

/-- Nothing but the sector map has changed. -/
theorem image_map (hm : Made sb) {m : Image}
    (hout : ∀ x, x < 1536 ∨ arrayByte sb ≤ x → f' x = f x)
    (hbits : ∀ y, (imageOf sb f').sectBit y = m.sectBit y)
    (hrest : m.inodeBit = (imageOf sb f).inodeBit ∧
      m.inode = (imageOf sb f).inode ∧ m.dir = (imageOf sb f).dir) :
    imageOf sb f' = m := by
  obtain ⟨h₁, h₂, -⟩ := region_bytes hm
  obtain ⟨hibit, hinode, hdir⟩ := hrest
  refine Image.ext ?_ (funext hbits) ?_ ?_
  · rw [hibit]
    exact inodeBit_congr fun x _ _ => hout x (by omega)
  · rw [hinode]
    exact inode_congr hm fun x _ _ => hout x (by omega)
  · rw [hdir]
    exact dir_congr fun x _ _ => hout x (by omega)

/-- The bits of a run are set. -/
theorem image_marks (hm : Made sb) {b n : Nat}
    (h : Marks f f' (8 * mapByte sb + b) n) (hend : b + n ≤ mapSize sb) :
    imageOf sb f' = (imageOf sb f).takeSects b n := by
  obtain ⟨h₁, h₂, h₃⟩ := region_bytes hm
  have hmap := KosSectorMap.marks_mapOf h
  refine image_map hm (fun x hx => byte_of_marks h ?_) (fun y => ?_)
    ⟨rfl, rfl, rfl⟩
  · rw [mapSize] at hend
    rw [mapByte_made hm]
    omega
  · show (decide (y < mapSize sb) && bit (mapOf sb f') y) =
      ((decide (y < mapSize sb) && bit (mapOf sb f) y) || _)
    rw [hmap, Bool.and_or_distrib_left]
    congr 1
    by_cases hy : y < mapSize sb
    · rw [decide_eq_true hy, Bool.true_and]
    · rw [decide_eq_false hy, Bool.false_and, decide_eq_false (by omega)]

/-- The bits of a run are cleared. -/
theorem image_clears (hm : Made sb) {b n : Nat}
    (h : Clears f f' (8 * mapByte sb + b) n) (hend : b + n ≤ mapSize sb) :
    imageOf sb f' = (imageOf sb f).freeSects b n := by
  obtain ⟨h₁, h₂, h₃⟩ := region_bytes hm
  have hmap := KosUnlink.clears_mapOf h
  refine image_map hm (fun x hx => byte_of_clears h ?_) (fun y => ?_)
    ⟨rfl, rfl, rfl⟩
  · rw [mapSize] at hend
    rw [mapByte_made hm]
    omega
  · show (decide (y < mapSize sb) && bit (mapOf sb f') y) =
      ((decide (y < mapSize sb) && bit (mapOf sb f) y) && _)
    rw [hmap, Bool.and_assoc]

/-- An inode is written. -/
theorem image_inode (hm : Made sb) {n : Nat} (h1 : 1 ≤ n) (h2 : n ≤ 4096)
    (p : Inode) :
    imageOf sb (put f (entryByte sb n) 16 (entryOf p)) =
      (imageOf sb f).setInode n p := by
  obtain ⟨h₁, h₂, -⟩ := region_bytes hm
  have hentry := entryByte_eq hm h1 h2
  have hout : ∀ x, x < arrayByte sb ∨ dirByte sb ≤ x →
      put f (entryByte sb n) 16 (entryOf p) x = f x := by
    intro x hx
    refine put_of_out ?_
    omega
  refine Image.ext (inodeBit_congr fun x _ _ => hout x (by omega))
    (sectBit_congr hm fun x _ _ => hout x (by omega)) (funext fun k => ?_)
    (dir_congr fun x _ _ => hout x (by omega))
  show (if _ then _ else _) =
    Function.update (imageOf sb f).inode n (asStored n p) k
  by_cases hk : k = n
  · obtain ⟨h₃, h₄, h₅, h₆⟩ := @diskInode_put sb n p f ROOT_DEV_NR
    rw [hk, Function.update_self, if_pos ⟨h1, h2⟩, asStored, ← h₃, ← h₄, ← h₅,
      ← h₆]
    rfl
  · rw [Function.update_of_ne hk]
    show _ = if _ then _ else _
    refine ite_congr rfl (fun hin => ?_) fun _ => rfl
    refine diskInode_congr fun l hl => put_of_out ?_
    rw [entryByte_eq hm hin.1 hin.2, hentry]
    omega

/-- Bytes of the root directory. -/
theorem image_dir (hm : Made sb) {a n : Nat} (h : a + n ≤ DIR_BYTES)
    (g : Nat → Byte) :
    imageOf sb (put f (dirByte sb + a) n g) =
      (imageOf sb f).setDir (put (imageOf sb f).dir a n g) := by
  obtain ⟨h₁, h₂, -⟩ := region_bytes hm
  have hout : ∀ x < dirByte sb, put f (dirByte sb + a) n g x = f x :=
    fun x hx => put_of_out (by omega)
  refine Image.ext (inodeBit_congr fun x _ _ => hout x (by omega))
    (sectBit_congr hm fun x _ _ => hout x (by omega))
    (inode_congr hm fun x _ hx => hout x hx) (funext fun y => ?_)
  show (if _ then _ else _) = put (imageOf sb f).dir a n g y
  by_cases hin : a ≤ y ∧ y < a + n
  · rw [if_pos (by omega), put_of_in (by omega), put_of_in hin]
    congr 1
    omega
  · rw [put_of_out (by omega), put_of_out (by omega)]
    rfl

end Regions

end KosDiskImage
