import Kos.SectorMapProofs
import Kos.InitFsProofs
import Kos.CStringProofs
import Kos.VsprintfProofs

/-! # The disk log

    `disklog` (`task/fs/disklog.c`) appends a string to the last 2048 sectors of
    the root device.  The first of them begins with a header of 64 bytes that
    every call writes anew, and every call also writes the last of them.

    * a string is one overlay, however many sectors it is cut into
      (`writeString_run`);
    * the header stays in front of the log (`header_run`), as the numbers of the
      clock are bytes (`timeText_length`);
    * as long as the last sector is out of reach, the log is what was logged
      (`disklog_appends`). -/

namespace KosDiskLog

open FlatMemory (Byte)
open Overlay
open KosKernel (Halt assert bind_eq_ok)
open KosFs
open KosSectorMap (mapStart)
open KosInitFs (NR_SECTS_FOR_LOG)
open KosVsprintf
open CString (strcpy)

/-! ## The clock -/

/-- The registers of the clock, and whether they hold BCD digits. -/
structure Cmos where
  bcd : Bool
  year : Byte
  month : Byte
  day : Byte
  hour : Byte
  minute : Byte
  second : Byte

/-- `BCD_TO_DEC`. -/
def bcdToDec (x : BitVec 32) : BitVec 32 := (x >>> 4) * 10 + (x &&& 0x0F)

/-- A field of `get_rtc_time`. -/
def rtcField (bcd : Bool) (r : Byte) : BitVec 32 :=
  if bcd then bcdToDec (r.setWidth 32) else r.setWidth 32

/-- `struct rtc_time`, in order. -/
def getRtcTime (c : Cmos) : List Arg :=
  [.int (rtcField c.bcd c.year + 2000), .int (rtcField c.bcd c.month),
    .int (rtcField c.bcd c.day), .int (rtcField c.bcd c.hour),
    .int (rtcField c.bcd c.minute), .int (rtcField c.bcd c.second)]

/-! ## Sectors -/

/-- The root device with the sectors that were written, `logdiskbuf`, and the
    static `pos`. -/
structure Log where
  disk : Nat → Byte
  writes : List Nat
  logdiskbuf : Nat → Byte
  pos : Nat

/-- `DISKLOG_RD_SECT`. -/
def rdSect (n : Int) (s : Log) : Except Halt Log :=
  if Addressed n then
    .ok { s with
      logdiskbuf := put s.logdiskbuf 0 512 (drop s.disk (512 * n.toNat)) }
  else .error .fault

/-- A write of `count` sectors of `logdiskbuf`; `DISKLOG_WR_SECT` writes one. -/
def wrSects (n : Int) (count : Nat) (s : Log) : Except Halt Log :=
  if Addressed n then
    .ok { s with
      disk := put s.disk (512 * n.toNat) (512 * count) s.logdiskbuf
      writes := s.writes ++ List.range' n.toNat count }
  else .error .fault

/-- The buffer of the log changes. -/
def setBuf (f : (Nat → Byte) → Nat → Byte) (s : Log) : Log :=
  { s with logdiskbuf := f s.logdiskbuf }

/-- `nr_log_blk0_nr`. -/
def nrLogBlk0 (sb : SuperBlock) : Int := (sb.nrSects - NR_SECTS_FOR_LOG).toInt

/-! ## The first call -/

/-- The bits of one byte: rounds left, `bit_off` and `bits_left`. -/
def setBits (byteOff : Nat) :
    Nat → Nat → Nat → Log → Except Halt (Nat × Log)
  | 0, _, left, s => .ok (left, s)
  | n + 1, bitOff, left, s => do
      assert ((s.logdiskbuf byteOff).getLsbD bitOff = false)
      let s := setBuf (fun b => Function.update b byteOff
        (b byteOff ||| (1 : Byte) <<< bitOff)) s
      if left - 1 = 0 then .ok (0, s)
      else setBits byteOff n (bitOff + 1) (left - 1) s

/-- The bytes of one sector. -/
def setBytes : Nat → Nat → Nat → Nat → Log → Except Halt (Nat × Log)
  | 0, _, _, left, s => .ok (left, s)
  | n + 1, byteOff, bitOff, left, s =>
      if 0 < left then do
        let (left, s) ← setBits byteOff (8 - bitOff) bitOff left s
        setBytes n (byteOff + 1) 0 left s
      else .ok (left, s)

/-- The sectors of the map. -/
def setSects : Nat → Int → Nat → Nat → Nat → Log → Except Halt (Nat × Log)
  | 0, _, _, _, left, s => .ok (left, s)
  | n + 1, sectNr, byteOff, bitOff, left, s => do
      let s ← rdSect sectNr s
      let (left, s) ← setBytes (512 - byteOff) byteOff bitOff left s
      let s ← wrSects sectNr 1 s
      if left = 0 then .ok (left, s)
      else setSects n (sectNr + 1) 0 0 left s

/-- `SET_LOG_SECT_SMAP_AT_STARTUP`.  A negative offset is outside the buffer. -/
def setLogSectSmap (sb : SuperBlock) (s : Log) : Except Halt Log := do
  let bits := (nrLogBlk0 sb).tmod 4096
  if bits < 0 then .error .fault
  else do
    let (left, s) ← setSects (2048 / 4096 + 2)
      (mapStart sb + (nrLogBlk0 sb).tdiv 4096) (bits.toNat / 8) (bits.toNat % 8)
      2048 s
    assert (left = 0)
    .ok s

/-- `MEMSET_LOG_SECTS`, in chunks of 256 sectors. -/
def memsetLogSects : Nat → Int → Log → Except Halt Log
  | 0, _, s => .ok s
  | n + 1, i, s => do
      let s ← wrSects i 256
        (setBuf (fun b => put b 0 (256 * 512) fun _ => 0x20) s)
      memsetLogSects n (i + 256) s

/-- What the first call does before it logs. -/
def initLog (sb : SuperBlock) (s : Log) : Except Halt Log := do
  let s ← setLogSectSmap sb s
  memsetLogSects 8 (nrLogBlk0 sb) { s with pos := 0x40 }

/-! ## Every call -/

/-- The loop over the bytes of the string: rounds left, `sect_nr`, and the rest
    of the string. -/
def writeString : Nat → Int → List Byte → Log → Except Halt Log
  | 0, _, _, s => .ok s
  | n + 1, sectNr, p, s =>
      if p = [] then .ok s
      else do
        let s ← rdSect sectNr s
        let off := s.pos % 512
        let bytes := min p.length (512 - off)
        let s ← wrSects sectNr 1
          (setBuf (fun b => put b off bytes fun k => p.getD k 0) s)
        writeString n (sectNr + 1) (p.drop bytes)
          { s with pos := s.pos + bytes }

/-- The texts of the header. -/
def posText (pos : Nat) : List Byte :=
  vsprintf "%8d\n" [.int (BitVec.ofNat 32 pos)]

/-- The line with the time. -/
def timeText (c : Cmos) : List Byte :=
  vsprintf "<%d-%02d-%02d %02d:%02d:%02d>\n" (getRtcTime c)

/-- The stores into the header. -/
def header (pos : Nat) (c : Cmos) (b : Nat → Byte) : Nat → Byte :=
  let b := strcpy b 0 (posText pos)
  let b := put b 9 22 fun _ => 0x20
  let b := Function.update b 31 0x0A
  let b := strcpy b 32 (timeText c)
  let b := put b 54 9 fun _ => 0x20
  Function.update b 63 0x0A

/-- The header, and the last sector. -/
def writeHeader (sb : SuperBlock) (c : Cmos) (s : Log) : Except Halt Log := do
  let s ← rdSect (nrLogBlk0 sb) s
  let s ← wrSects (nrLogBlk0 sb) 1 (setBuf (header s.pos c) s)
  wrSects (nrLogBlk0 sb + 2048 - 1) 1
    (setBuf (fun b => put b 64 448 fun _ => b 51) s)

/-- `disklog`. -/
def disklog (sb : SuperBlock) (logstr : List Byte) (c : Cmos) (s : Log) :
    Except Halt Log := do
  let s ← if s.pos = 0 then initLog sb s else .ok s
  let s ← writeString logstr.length (nrLogBlk0 sb + (s.pos / 512 : Nat)) logstr s
  writeHeader sb c s

/-- Calls one after the other. -/
def disklogs (sb : SuperBlock) : List (List Byte × Cmos) → Log → Except Halt Log
  | [], s => .ok s
  | c :: calls, s => do
      let s ← disklog sb c.1 c.2 s
      disklogs sb calls s

/-! ## The string -/

section String

variable {s : Log} {n fuel : Nat} {p : List Byte}

/-- A step that returned goes on. -/
theorem ok_bind {α β : Type} (a : α) (f : α → Except Halt β) :
    (Except.ok a >>= f) = f a := rfl

/-- Reading a sector that can be addressed. -/
theorem rdSect_of {m : Nat} (h : 512 * m < 2147483648) (s : Log) :
    rdSect (m : Nat) s = .ok { s with
      logdiskbuf := put s.logdiskbuf 0 512 (drop s.disk (512 * m)) } :=
  if_pos ⟨Int.natCast_nonneg m, by omega⟩

/-- Writing sectors that can be addressed. -/
theorem wrSects_of {m : Nat} (h : 512 * m < 2147483648) (count : Nat) (s : Log) :
    wrSects (m : Nat) count s = .ok { s with
      disk := put s.disk (512 * m) (512 * count) s.logdiskbuf
      writes := s.writes ++ List.range' m count } :=
  if_pos ⟨Int.natCast_nonneg m, by omega⟩

/-- An empty text writes nothing. -/
theorem writeString_nil (fuel : Nat) (sectNr : Int) (s : Log) :
    writeString fuel sectNr [] s = .ok s := by
  cases fuel with
  | zero => rfl
  | succ fuel => exact if_pos rfl

/-- One round: a part of the string, at most to the end of the sector. -/
theorem writeString_round (fuel : Nat) (hp : p ≠ []) {m : Nat}
    (h : 512 * m < 2147483648) :
    ∃ t : Log, t.disk = put s.disk (512 * m + s.pos % 512)
        (min p.length (512 - s.pos % 512)) (fun k => p.getD k 0) ∧
      t.writes = s.writes ++ [m] ∧
      t.pos = s.pos + min p.length (512 - s.pos % 512) ∧
      writeString (fuel + 1) (m : Nat) p s =
        writeString fuel ((m : Nat) + 1)
          (p.drop (min p.length (512 - s.pos % 512))) t := by
  obtain ⟨b, hb⟩ : ∃ b, b = put s.logdiskbuf 0 512 (drop s.disk (512 * m)) :=
    ⟨_, rfl⟩
  obtain ⟨g, hg⟩ : ∃ g, g = put b (s.pos % 512)
    (min p.length (512 - s.pos % 512)) (fun k => p.getD k 0) := ⟨_, rfl⟩
  have hdisk : put s.disk (512 * m) 512 g = put s.disk (512 * m + s.pos % 512)
      (min p.length (512 - s.pos % 512)) fun k => p.getD k 0 := by
    rw [hg, hb]
    exact put_block (by omega)
  refine ⟨⟨put s.disk (512 * m) 512 g, s.writes ++ [m], g,
    s.pos + min p.length (512 - s.pos % 512)⟩, hdisk, rfl, rfl, ?_⟩
  rw [writeString, if_neg hp, rdSect_of h, ok_bind]
  dsimp only [setBuf]
  rw [← hb, ← hg, wrSects_of h, ok_bind]
  rfl

/-- A character of the rest of a text. -/
theorem getD_drop (p : List Byte) (m k : Nat) :
    (p.drop m).getD k 0 = p.getD (m + k) 0 := by
  rw [List.getD_eq_getElem?_getD, List.getD_eq_getElem?_getD, List.getElem?_drop]

/-- **THE STRING** is put behind what was logged before. -/
theorem writeString_run : ∀ {fuel : Nat} {p : List Byte} {s : Log},
    p.length ≤ fuel → 512 * n + s.pos + p.length ≤ 2147483648 →
    ∃ t, writeString fuel ((n : Int) + (s.pos / 512 : Nat)) p s = .ok t ∧
      t.disk = put s.disk (512 * n + s.pos) p.length (fun k => p.getD k 0) ∧
      t.pos = s.pos + p.length ∧
      ∀ w ∈ t.writes, w ∈ s.writes ∨
        n ≤ w ∧ 512 * w < 512 * n + s.pos + p.length := by
  intro fuel
  induction fuel with
  | zero =>
      intro p s hlen _
      obtain rfl : p = [] := List.length_eq_zero_iff.mp (by omega)
      exact ⟨s, rfl, (put_zero _ _ _).symm, rfl, fun w hw => Or.inl hw⟩
  | succ fuel ih =>
      intro p s hlen hroom
      by_cases hp : p = []
      · subst hp
        exact ⟨s, writeString_nil _ _ s, (put_zero _ _ _).symm, rfl,
          fun w hw => Or.inl hw⟩
      have hpos : 0 < p.length := List.length_pos_iff.mpr hp
      obtain ⟨m, hm⟩ : ∃ m, m = n + s.pos / 512 := ⟨_, rfl⟩
      have hsect : (n : Int) + (s.pos / 512 : Nat) = (m : Nat) := by omega
      obtain ⟨bytes, hbytes⟩ : ∃ bytes, bytes =
        min p.length (512 - s.pos % 512) := ⟨_, rfl⟩
      obtain ⟨s₁, hdisk₁, hwrites₁, hpos₁, hround⟩ := writeString_round (s := s)
        fuel hp (m := m) (by omega)
      rw [← hbytes] at hdisk₁ hpos₁ hround
      have hplace : 512 * m + s.pos % 512 = 512 * n + s.pos := by omega
      rw [hplace] at hdisk₁
      -- the rounds that are left start in the next sector, if there are any
      have hnext : writeString fuel ((m : Nat) + 1) (p.drop bytes) s₁ =
          writeString fuel ((n : Int) + (s₁.pos / 512 : Nat)) (p.drop bytes)
            s₁ := by
        by_cases hall : p.length ≤ bytes
        · rw [List.drop_eq_nil_of_le hall, writeString_nil, writeString_nil]
        · congr 1
          omega
      have hrest : (p.drop bytes).length = p.length - bytes := List.length_drop
      obtain ⟨t, hrun, hdisk, hpos', hwrites⟩ := ih (p := p.drop bytes) (s := s₁)
        (by omega) (by omega)
      refine ⟨t, ?_, ?_, by omega, fun w hw => ?_⟩
      · rw [hsect, hround, hnext, hrun]
      · have hdrop : (fun k => (p.drop bytes).getD k 0) =
            drop (fun k => p.getD k 0) bytes := funext (getD_drop p bytes)
        rw [hdisk, hdisk₁, hpos₁, hrest, hdrop,
          show 512 * n + (s.pos + bytes) = 512 * n + s.pos + bytes by omega,
          put_put_append]
        congr 1
        omega
      · rcases hwrites w hw with hold | ⟨hlo, hhi⟩
        · rw [hwrites₁, List.mem_append, List.mem_singleton] at hold
          rcases hold with hold | rfl
          · exact Or.inl hold
          · exact Or.inr ⟨by omega, by omega⟩
        · exact Or.inr ⟨hlo, by omega⟩

end String

/-! ## The header -/

section Header

variable {b : Nat → Byte} {pos k n : Nat} {c : Cmos} {s : Log} {sb : SuperBlock}

/-- A conversion of a small number that is not negative. -/
theorem convert_length {v : BitVec 32} {m : Nat} (h0 : 0 ≤ v.toInt)
    (h : v.toInt.natAbs < 10 ^ (m + 1)) :
    (convert 'd' (some (.int v))).length ≤ m + 1 := by
  have hconvert : convert 'd' (some (.int v)) = i2a 10 10 v.toInt :=
    if_neg (by omega)
  rw [hconvert]
  exact i2a_length (by decide) 10 h

/-- What the clock gives is no more than a byte. -/
theorem rtcField_le (bcd : Bool) (r : Byte) :
    0 ≤ (rtcField bcd r).toInt ∧ (rtcField bcd r).toInt ≤ 255 := by
  have hall : ∀ r : Byte, (0 ≤ (rtcField true r).toInt ∧
      (rtcField true r).toInt ≤ 255) ∧ 0 ≤ (rtcField false r).toInt ∧
      (rtcField false r).toInt ≤ 255 := by decide
  cases bcd with
  | true => exact (hall r).1
  | false => exact (hall r).2

/-- The time takes at most 27 characters. -/
theorem timeText_length (c : Cmos) : (timeText c).length ≤ 27 := by
  obtain ⟨hy0, hy⟩ := rtcField_le c.bcd c.year
  have hyear : (rtcField c.bcd c.year + 2000).toInt =
      (rtcField c.bcd c.year).toInt + 2000 := by
    rw [BitVec.toInt_add, show (2000 : BitVec 32).toInt = 2000 from rfl,
      Int.bmod_def]
    omega
  have hlen₄ : (pad ' ' 0 (convert 'd'
      (some (.int (rtcField c.bcd c.year + 2000))))).length ≤ 4 := by
    have h := convert_length (v := rtcField c.bcd c.year + 2000) (m := 3)
      (by omega) (by omega)
    exact Nat.le_trans (pad_length_le _ _ _) (by omega)
  have hlen₃ : ∀ r, (pad '0' 2 (convert 'd'
      (some (.int (rtcField c.bcd r))))).length ≤ 3 := by
    intro r
    obtain ⟨h0, hle⟩ := rtcField_le c.bcd r
    have h := convert_length (m := 2) h0 (by omega)
    exact Nat.le_trans (pad_length_le _ _ _) (by omega)
  have hmonth := hlen₃ c.month
  have hday := hlen₃ c.day
  have hhour := hlen₃ c.hour
  have hminute := hlen₃ c.minute
  have hsecond := hlen₃ c.second
  have htext : timeText c = ch '<' :: (pad ' ' 0 (convert 'd'
        (some (.int (rtcField c.bcd c.year + 2000)))) ++
      ch '-' :: (pad '0' 2 (convert 'd' (some (.int (rtcField c.bcd c.month)))) ++
      ch '-' :: (pad '0' 2 (convert 'd' (some (.int (rtcField c.bcd c.day)))) ++
      ch ' ' :: (pad '0' 2 (convert 'd' (some (.int (rtcField c.bcd c.hour)))) ++
      ch ':' :: (pad '0' 2 (convert 'd' (some (.int (rtcField c.bcd c.minute)))) ++
      ch ':' :: (pad '0' 2 (convert 'd' (some (.int (rtcField c.bcd c.second)))) ++
      [ch '>', ch '\n'])))))) := rfl
  rw [htext]
  simp only [List.length_cons, List.length_append, List.length_nil]
  omega

/-- The position, eight wide and on a line of its own. -/
theorem posText_eq (pos : Nat) : posText pos =
    pad ' ' 8 (convert 'd' (some (.int (BitVec.ofNat 32 pos)))) ++ [ch '\n'] :=
  rfl

/-- A position of up to eight digits fills its field. -/
theorem posText_length (h : pos < 10 ^ 8) : (posText pos).length = 9 := by
  have hint : (BitVec.ofNat 32 pos).toInt = pos := by
    have hnat : (BitVec.ofNat 32 pos).toNat = pos := by
      rw [BitVec.toNat_ofNat]
      omega
    rw [BitVec.toInt_eq_toNat_of_lt (by omega), hnat]
  have hlen := convert_length (v := BitVec.ofNat 32 pos) (m := 7) (by omega)
    (by omega)
  have htake := (List.takeWhile_sublist (fun b : Byte => decide (b ≠ 0))
    (l := convert 'd' (some (.int (BitVec.ofNat 32 pos))))).length_le
  rw [posText_eq, List.length_append, pad, List.length_append,
    List.length_replicate, List.length_singleton]
  omega

/-- **THE HEADER** has 64 bytes. -/
theorem header_of_le (h : pos < 10 ^ 8) (hk : 64 ≤ k) : header pos c b k = b k := by
  have hpos := posText_length h
  have htime := timeText_length c
  rw [header, Function.update_of_ne (by omega), put_of_out (by omega),
    CString.strcpy_of_out (by omega), Function.update_of_ne (by omega),
    put_of_out (by omega), CString.strcpy_of_out (by omega)]

/-- It begins with the position. -/
theorem header_pos (h : pos < 10 ^ 8) (hk : k < 9) :
    header pos c b k = (posText pos).getD k 0 := by
  have hpos := posText_length h
  rw [header, Function.update_of_ne (by omega), put_of_out (by omega),
    CString.strcpy_of_out (by omega), Function.update_of_ne (by omega),
    put_of_out (by omega), strcpy, put_of_in (by omega), Nat.sub_zero]

/-- Reading leaves the position. -/
theorem rdSect_pos {m : Int} {t : Log} (h : rdSect m s = .ok t) :
    t.pos = s.pos := by
  rw [rdSect] at h
  split at h
  · cases h
    rfl
  · cases h

/-- Writing leaves the position. -/
theorem wrSects_pos {m : Int} {count : Nat} {t : Log}
    (h : wrSects m count s = .ok t) : t.pos = s.pos := by
  rw [wrSects] at h
  split at h
  · cases h
    rfl
  · cases h

/-- The header leaves the position. -/
theorem writeHeader_pos {t : Log} (h : writeHeader sb c s = .ok t) :
    t.pos = s.pos := by
  obtain ⟨s₁, h₁, h⟩ := bind_eq_ok.mp h
  obtain ⟨s₂, h₂, h₃⟩ := bind_eq_ok.mp h
  have hpos₂ : s₂.pos = s₁.pos :=
    wrSects_pos (s := setBuf (header s₁.pos c) s₁) h₂
  have hpos₃ : t.pos = s₂.pos :=
    wrSects_pos (s := setBuf (fun b => put b 64 448 fun _ => b 51) s₂) h₃
  rw [hpos₃, hpos₂, rdSect_pos h₁]

/-- The two writes at the end of a call. -/
theorem writeHeader_run (hn : nrLogBlk0 sb = (n : Nat))
    (hroom : 512 * (n + 2048) ≤ 2147483648) (hpos : s.pos < 10 ^ 8) :
    ∃ t, writeHeader sb c s = .ok t ∧ t.pos = s.pos ∧
      t.writes = s.writes ++ [n] ++ [n + 2047] ∧
      (∀ x, 512 * n + 64 ≤ x → x < 512 * (n + 2047) → t.disk x = s.disk x) ∧
      (∀ k < 9, t.disk (512 * n + k) = (posText s.pos).getD k 0) ∧
      t.disk (512 * (n + 2047)) = (posText s.pos).getD 0 0 := by
  obtain ⟨b, hb⟩ : ∃ b, b = put s.logdiskbuf 0 512 (drop s.disk (512 * n)) :=
    ⟨_, rfl⟩
  obtain ⟨g, hg⟩ : ∃ g, g = header s.pos c b := ⟨_, rfl⟩
  obtain ⟨e, he⟩ : ∃ e, e = put g 64 448 fun _ => g 51 := ⟨_, rfl⟩
  obtain ⟨d, hd⟩ : ∃ d, d = put s.disk (512 * n) 512 g := ⟨_, rfl⟩
  -- the position is also stamped in the last sector of the region
  have hlast : (n : Int) + 2048 - 1 = (n + 2047 : Nat) := by omega
  have hrun : writeHeader sb c s = .ok ⟨put d (512 * (n + 2047)) 512 e,
      s.writes ++ [n] ++ [n + 2047], e, s.pos⟩ := by
    rw [writeHeader, hn, rdSect_of (by omega), ok_bind]
    dsimp only [setBuf]
    rw [← hb, ← hg, wrSects_of (by omega), ok_bind, hlast,
      wrSects_of (by omega)]
    dsimp only
    rw [Nat.mul_one, ← hd, ← he]
    rfl
  refine ⟨_, hrun, rfl, rfl, fun x hlo hhi => ?_, fun k hk => ?_, ?_⟩
  · dsimp only
    rw [put_of_out (by omega), hd]
    by_cases hx : x < 512 * n + 512
    · rw [put_of_in (by omega), hg, header_of_le hpos (by omega), hb,
        put_of_in (by omega), drop,
        show 512 * n + (x - 512 * n - 0) = x by omega]
    · rw [put_of_out (by omega)]
  · dsimp only
    rw [put_of_out (by omega), hd, put_at (by omega), hg, header_pos hpos hk]
  · dsimp only
    rw [put_of_in (by omega), Nat.sub_self, he, put_of_out (by omega), hg,
      header_pos hpos (by omega)]

end Header

/-! ## Calls -/

/-- The bytes that calls log. -/
def logged (calls : List (List Byte × Cmos)) : List Byte :=
  (calls.map Prod.fst).flatten

/-- The log sectors. -/
def LogSector (sb : SuperBlock) (w : Nat) : Prop :=
  sb.nrSects.toNat - 2048 ≤ w ∧ w < sb.nrSects.toNat

/-- The first byte of the log. -/
def logByte (sb : SuperBlock) : Nat := 512 * (sb.nrSects.toNat - 2048)

/-- From `s` to `t` the bytes were appended: the log sectors were written, what
    was logged before is there, and the bytes behind it. -/
structure Appended (sb : SuperBlock) (bytes : List Byte) (s t : Log) : Prop where
  writes : ∀ w ∈ t.writes, w ∈ s.writes ∨ LogSector sb w
  pos : t.pos = s.pos + bytes.length
  kept : ∀ k, 64 ≤ k → k < s.pos →
    t.disk (logByte sb + k) = s.disk (logByte sb + k)
  added : ∀ k < bytes.length,
    t.disk (logByte sb + (s.pos + k)) = bytes.getD k 0

/-- The header has the position. -/
def Headed (sb : SuperBlock) (s : Log) : Prop :=
  ∀ k < 9, s.disk (logByte sb + k) = (posText s.pos).getD k 0

/-- A region for the log that can be addressed. -/
structure Region (sb : SuperBlock) : Prop where
  log : 2048 ≤ sb.nrSects.toNat
  addressed : sb.nrSects.toNat ≤ 4194304

section Calls

/-- The first byte of the log. -/
theorem logByte_eq (sb : SuperBlock) :
    logByte sb = 512 * (sb.nrSects.toNat - 2048) := rfl

variable {sb : SuperBlock} {s t u : Log} {p q : List Byte} {c : Cmos}

/-- The first sector of the log. -/
theorem nrLogBlk0_eq (hr : Region sb) :
    nrLogBlk0 sb = ((sb.nrSects.toNat - 2048 : Nat) : Int) := by
  have hlog : NR_SECTS_FOR_LOG.toNat = 2048 := by decide
  have hlow := hr.log
  have hhigh := hr.addressed
  have hnat : (sb.nrSects - NR_SECTS_FOR_LOG).toNat =
      sb.nrSects.toNat - 2048 := by
    rw [BitVec.toNat_sub, hlog]
    omega
  rw [nrLogBlk0, BitVec.toInt_eq_toNat_of_lt (by rw [hnat]; omega), hnat]

/-- No entry is the log unchanged. -/
theorem appended_nil (sb : SuperBlock) (s : Log) : Appended sb [] s s :=
  ⟨fun _ h => Or.inl h, rfl, fun _ _ _ => rfl,
    fun _ hk => absurd hk (Nat.not_lt_zero _)⟩

/-- Bytes that are appended stay. -/
theorem appended_trans (h₀ : 64 ≤ s.pos) (h₁ : Appended sb p s t)
    (h₂ : Appended sb q t u) : Appended sb (p ++ q) s u := by
  have hpos₁ := h₁.pos
  have hpos₂ := h₂.pos
  refine ⟨fun w hw => ?_, ?_, fun k hlo hhi => ?_, fun k hk => ?_⟩
  · rcases h₂.writes w hw with hold | hnew
    · exact h₁.writes w hold
    · exact Or.inr hnew
  · rw [List.length_append]
    omega
  · rw [h₂.kept k hlo (by omega), h₁.kept k hlo hhi]
  · rw [List.length_append] at hk
    by_cases hp : k < p.length
    · rw [h₂.kept _ (by omega) (by omega), h₁.added k hp,
        List.getD_append _ _ _ _ hp]
    · rw [List.getD_append_right _ _ _ _ (by omega),
        ← h₂.added (k - p.length) (by omega),
        show t.pos + (k - p.length) = s.pos + k by omega]

/-- **ONE CALL** that keeps the last sector out of reach appends its string. -/
theorem disklog_run (hr : Region sb) (h₀ : 64 ≤ s.pos)
    (hroom : s.pos + p.length ≤ 2047 * 512) :
    ∃ t, disklog sb p c s = .ok t ∧ Appended sb p s t ∧ Headed sb t := by
  have hlow := hr.log
  have hhigh := hr.addressed
  obtain ⟨n, hn⟩ : ∃ n, n = sb.nrSects.toNat - 2048 := ⟨_, rfl⟩
  have hblk : nrLogBlk0 sb = (n : Nat) := by rw [hn, nrLogBlk0_eq hr]
  have hbyte : logByte sb = 512 * n := by rw [logByte_eq, hn]
  obtain ⟨s₁, hstring, hdisk₁, hpos₁, hwrites₁⟩ := writeString_run (n := n)
    (s := s) (Nat.le_refl p.length) (by omega)
  obtain ⟨t, hheader, hpos, hwrites, hsame, htext, -⟩ := writeHeader_run (c := c)
    (s := s₁) hblk (by omega) (by omega)
  refine ⟨t, ?_, ⟨fun w hw => ?_, hpos.trans hpos₁, fun k hlo hk => ?_,
    fun k hk => ?_⟩, fun k hk => ?_⟩
  · rw [disklog, if_neg (by omega), ok_bind, hblk]
    dsimp only
    rw [hstring, ok_bind, hheader]
  · -- the sectors written: those of the string, and the first and last of the
    -- region
    rw [LogSector]
    rw [hwrites, List.mem_append, List.mem_append, List.mem_singleton,
      List.mem_singleton] at hw
    rcases hw with (hold | rfl) | rfl
    · rcases hwrites₁ w hold with hold | ⟨hlo, hhi⟩
      · exact Or.inl hold
      · exact Or.inr ⟨by omega, by omega⟩
    · exact Or.inr ⟨by omega, by omega⟩
    · exact Or.inr ⟨by omega, by omega⟩
  · rw [hbyte, hsame _ (by omega) (by omega), hdisk₁, put_of_out (by omega)]
  · rw [hbyte, hsame _ (by omega) (by omega), hdisk₁, put_of_in (by omega),
      show 512 * n + (s.pos + k) - (512 * n + s.pos) = k by omega]
  · rw [hbyte, htext k hk, hpos]

/-- **CALLS** append their strings one behind the other. -/
theorem disklogs_run (hr : Region sb) : ∀ (calls : List (List Byte × Cmos))
    {s : Log}, 64 ≤ s.pos → s.pos + (logged calls).length ≤ 2047 * 512 →
    ∃ t, disklogs sb calls s = .ok t ∧ Appended sb (logged calls) s t ∧
      (calls ≠ [] → Headed sb t) := by
  intro calls
  induction calls with
  | nil => exact fun {s} _ _ => ⟨s, rfl, appended_nil sb s, fun h => absurd rfl h⟩
  | cons c calls ih =>
      intro s h₀ hroom
      have hlogged : logged (c :: calls) = c.1 ++ logged calls := rfl
      rw [hlogged, List.length_append] at hroom
      obtain ⟨s₁, hrun₁, happ₁, hhead₁⟩ := disklog_run (p := c.1) (c := c.2) hr h₀
        (by omega)
      have hpos₁ := happ₁.pos
      obtain ⟨t, hrun, happ, hhead⟩ := ih (s := s₁) (by omega) (by omega)
      refine ⟨t, ?_, appended_trans h₀ happ₁ happ, fun _ => ?_⟩
      · rw [disklogs, hrun₁, ok_bind, hrun]
      · cases calls with
        | nil =>
            cases hrun
            exact hhead₁
        | cons _ _ => exact hhead (List.cons_ne_nil _ _)

/-- The first call is the initialisation and then a call like the others. -/
theorem disklog_first (hpos : s.pos = 0) (hinit : initLog sb s = .ok t)
    (ht : t.pos ≠ 0) : disklog sb p c s = disklog sb p c t := by
  rw [disklog, disklog, if_pos hpos, if_neg ht, hinit]

end Calls

/-- What is asked of calls after the initialisation: the log sectors were
    written, and the log is what was logged, up to the position in its
    header. -/
structure AppendOnly (sb : SuperBlock) (calls : List (List Byte × Cmos))
    (s t : Log) : Prop where
  writes : ∀ w ∈ t.writes, w ∈ s.writes ∨ LogSector sb w
  pos : t.pos = 0x40 + (logged calls).length
  header : calls ≠ [] → Headed sb t
  bytes : ∀ k < (logged calls).length,
    t.disk (logByte sb + (0x40 + k)) = (logged calls).getD k 0

section Appending

variable {sb : SuperBlock} {s t : Log} {calls : List (List Byte × Cmos)}

/-- **THE DISK LOG** is append-only as long as no call takes it into the last
    log sector. -/
theorem disklog_appends (hr : Region sb) (hpos : s.pos = 0x40)
    (hroom : 0x40 + (logged calls).length ≤ 2047 * 512) :
    ∃ t, disklogs sb calls s = .ok t ∧ AppendOnly sb calls s t := by
  obtain ⟨t, hrun, happ, hhead⟩ := disklogs_run hr calls (s := s)
    (by omega) (by omega)
  have hp := happ.pos
  rw [hpos] at hp
  refine ⟨t, hrun, happ.writes, hp, hhead, fun k hk => ?_⟩
  rw [← happ.added k hk, hpos]

/-- A call leaves the header in the last sector, too. -/
theorem disklog_last {p : List Byte} {c : Cmos} (hr : Region sb)
    (hs : s.pos ≠ 0) (h : disklog sb p c s = .ok t) (ht : t.pos < 10 ^ 8) :
    t.disk (logByte sb + 2047 * 512) = (posText t.pos).getD 0 0 := by
  have hlow := hr.log
  have hhigh := hr.addressed
  rw [disklog, if_neg hs, ok_bind] at h
  obtain ⟨s₁, -, hheader⟩ := bind_eq_ok.mp h
  have hpos₁ := writeHeader_pos hheader
  obtain ⟨u, hu, -, -, -, -, hlast⟩ := writeHeader_run (c := c) (s := s₁)
    (nrLogBlk0_eq hr) (by omega) (by omega)
  cases hheader.symm.trans hu
  rw [hpos₁, ← hlast, logByte_eq, show 512 * (sb.nrSects.toNat - 2048) + 2047 * 512 =
    512 * (sb.nrSects.toNat - 2048 + 2047) by omega]

end Appending

/-- The last second of a year. -/
def demoCmos : Cmos := ⟨true, 0x24, 0x12, 0x31, 0x23, 0x59, 0x59⟩

/-- A log that is initialised, on an empty disk of 40257 sectors. -/
def demoLog : Log := ⟨fun _ => 0, [], fun _ => 0, 0x40⟩

/-- The smallest device whose data starts behind the log. -/
def demoSb : SuperBlock := KosMkfs.superBlock 0x9D41 KosFs.ROOT_DEV_NR

/-- The log of the examples. -/
theorem demoRegion : Region demoSb := ⟨by decide, by decide⟩

/-- A first short entry is appended. -/
theorem disklog_appends_hello :
    ∃ t, disklogs demoSb [([ch 'h', ch 'i'], demoCmos)] demoLog = .ok t ∧
      AppendOnly demoSb [([ch 'h', ch 'i'], demoCmos)] demoLog t :=
  disklog_appends demoRegion rfl (by decide)

/-- One byte in the last sector is lost at once. -/
theorem disklog_overwrites :
    ¬ ∀ (sb : SuperBlock) (calls : List (List Byte × Cmos)) (s : Log),
      Region sb → s.pos = 0x40 →
      ∃ t, disklogs sb calls s = .ok t ∧ AppendOnly sb calls s t := by
  intro hall
  obtain ⟨p, hp⟩ : ∃ p, p = List.replicate 1048001 (ch 'a') := ⟨_, rfl⟩
  obtain ⟨t, hrun, happ⟩ := hall demoSb [(p, demoCmos)] demoLog demoRegion rfl
  have hlogged : logged [(p, demoCmos)] = p := List.append_nil p
  have hlen : p.length = 1048001 := by rw [hp, List.length_replicate]
  have hpos := happ.pos
  have hbyte := happ.bytes 1048000 (by rw [hlogged, hlen]; decide)
  rw [hlogged, hlen] at hpos
  have hcall : disklog demoSb p demoCmos demoLog = .ok t := by
    obtain ⟨u, hu, hdone⟩ := bind_eq_ok.mp hrun
    cases hdone
    exact hu
  have hlast := disklog_last demoRegion (by decide) hcall (by omega)
  have hchar : p.getD 1048000 0 = ch 'a' := by
    rw [hp, List.getD_replicate _ (by decide)]
  rw [hlogged, hchar] at hbyte
  have hspace : (posText t.pos).getD 0 0 = ch ' ' := by
    rw [hpos]
    rfl
  rw [show logByte demoSb + (0x40 + 1048000) = logByte demoSb + 2047 * 512 from rfl,
    hlast, hspace] at hbyte
  exact absurd hbyte (by decide)

end KosDiskLog
