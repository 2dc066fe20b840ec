import Kos.ByteFilesProofs
import Kos.CStringProofs

/-! # `untar`

    The extraction of `/cmd.tar`, over ideal byte files.

    * A chunk of the data is copied, with the padding behind the last one
      (`copy_data`), so the next header is where the next member begins;
    * the loop over the headers leaves the data of the members in their files
      (`extract_members`);
    * the first byte is cleared, so the archive is not extracted again
      (`untar_extracts`). -/

namespace KosUntar

open FlatMemory (Byte)
open CString
open Overlay
open ByteFiles

/-! ## `untar` -/

/-- A block of the archive. -/
def SECTOR_SIZE : Nat := 512

/-- `sizeof(buf)` -/
def CHUNK : Nat := SECTOR_SIZE * 16

/-- What ends `untar` before its time: a failed assertion, a string that does
    not end in `buf`, or no rounds left. -/
inductive Halt where
  | assertion
  | wild
  | fuel

/-- The file of a path in the root directory. -/
def fileOf (path : List Byte) : List Byte :=
  if path.head? = some 0x2f then path.tail else path

/-- What `read` leaves in `buf`. -/
def fill (buf : Nat → Byte) (bs : List Byte) : Nat → Byte :=
  put buf 0 bs.length fun k => bs.getD k 0

/-- The first `n` bytes of `buf`. -/
def taken (buf : Nat → Byte) (n : Nat) : List Byte := (List.range n).map buf

/-- `while (*p) f_len = (f_len * 8) + (*p++ - '0');`, over at most `n` bytes. -/
def octal (buf : Nat → Byte) : Nat → Nat → BitVec 32 → Option (BitVec 32)
  | 0, _, _ => none
  | n + 1, p, fLen =>
      if buf p = 0 then some fLen
      else octal buf n (p + 1) (fLen * 8 + ((buf p).signExtend 32 - 48))

/-- `while (bytes_left)`, in at most `n` rounds. -/
def copy (fd fdout : Nat) : Nat → Int → (Nat → Byte) → Files (List Byte) Byte →
    Except Halt ((Nat → Byte) × Files (List Byte) Byte)
  | 0, _, _, _ => throw .fuel
  | n + 1, bytesLeft, buf, s =>
      if bytesLeft = 0 then pure (buf, s)
      else
        let iobytes := min (CHUNK : Int) bytesLeft
        let count := ((iobytes - 1).tdiv SECTOR_SIZE + 1) * SECTOR_SIZE
        let (bs, s) := s.read fd count.toNat
        let buf := fill buf bs
        let (bytes, s) := s.write fdout (taken buf iobytes.toNat)
        if (bytes : Int) ≠ iobytes then throw .assertion
        else copy fd fdout n (bytesLeft - iobytes) buf s

/-- `untar` in front of a header, with the positions of those it has read. -/
structure Untar where
  files   : Files (List Byte) Byte
  buf     : Nat → Byte
  i       : Nat
  headers : List Nat

/-- `while (1)`, in at most `n` rounds; false where `untar` returns early. -/
def extract (fd : Nat) : Nat → Untar → Except Halt (Bool × Untar)
  | 0, _ => throw .fuel
  | n + 1, u =>
      let pos := ((u.files.desc fd).map Prod.snd).getD 0
      let (bs, s) := u.files.read fd SECTOR_SIZE
      let buf := fill u.buf bs
      let headers := u.headers ++ [pos]
      if bs.length ≠ SECTOR_SIZE then throw .assertion
      else if buf 0 = 0 then pure (true, ⟨s, buf, u.i, headers⟩)
      else
        match octal buf (CHUNK - 124) 124 0, readStr buf CHUNK 0 with
        | some fLen, some name =>
            match s.openFile (fileOf name) true true with
            | (none, s) => pure (false, ⟨s.close fd, buf, u.i + 1, headers⟩)
            | (some fdout, s) => do
                let (buf, s) ← copy fd fdout n fLen.toInt buf s
                extract fd n ⟨s.close fdout, buf, u.i + 1, headers⟩
        | _, _ => throw .wild

/-- `untar`: the files it leaves, and the positions of the headers. -/
def untar (n : Nat) (filename : List Byte) (buf : Nat → Byte)
    (s : Files (List Byte) Byte) :
    Except Halt (Files (List Byte) Byte × List Nat) :=
  match s.openFile (fileOf filename) false false with
  | (none, _) => throw .assertion
  | (some fd, s) => do
      let (done, u) ← extract fd n ⟨s, buf, 0, []⟩
      if done = false then pure (u.files, u.headers)
      else if u.i ≠ 0 then
        let s := u.files.lseek fd 0
        let buf := Function.update u.buf 0 0
        let (bytes, s) := s.write fd (taken buf 1)
        if bytes ≠ 1 then throw .assertion
        else pure (s.close fd, u.headers)
      else pure (u.files.close fd, u.headers)

/-! ## Archives -/

/-- "cmd.tar" -/
def cmdTar : List Byte := [0x63, 0x6d, 0x64, 0x2e, 0x74, 0x61, 0x72]

/-- The value of octal digits. -/
def value (ds : List Byte) (v : Nat) : Nat :=
  ds.foldl (fun v d => v * 8 + (d.toNat - 48)) v

/-- The bytes of a list as a store. -/
def at0 (l : List Byte) : Nat → Byte := fun k => l.getD k 0

/-- A member of an archive. -/
structure Member where
  name    : List Byte
  header  : List Byte
  digits  : List Byte
  data    : List Byte
  padding : List Byte
  header_length : header.length = 512
  name_length : 1 ≤ name.length ∧ name.length ≤ 11
  name_plain  : 0x2f ∉ name
  name_other  : name ≠ cmdTar
  name_at     : StrAt (at0 header) 0 name
  size_at     : StrAt (at0 header) 124 digits
  size_octal  : digits.length ≤ 11 ∧ ∀ d ∈ digits, 48 ≤ d.toNat ∧ d.toNat < 56
  size_eq     : value digits 0 = data.length
  size_le     : data.length ≤ 1048576
  padded      : (data.length + padding.length) % 512 = 0 ∧ padding.length < 512

/-- A member as it stands in the archive. -/
def Member.bytes (m : Member) : List Byte := m.header ++ (m.data ++ m.padding)

/-- The members, a zero block, and anything behind it. -/
def archive (ms : List Member) (rest : List Byte) : List Byte :=
  match ms with
  | [] => List.replicate 512 0 ++ rest
  | m :: ms => m.bytes ++ archive ms rest

/-- The files of the members. -/
def extracted (c : List Byte → Option (List Byte)) (ms : List Member) :
    List Byte → Option (List Byte) :=
  ms.foldl (fun c m => Function.update c m.name (some m.data)) c

/-- Where the headers begin, and the zero block. -/
def offsets (pos : Nat) : List Member → List Nat
  | [] => [pos]
  | m :: ms => pos :: offsets (pos + m.bytes.length) ms

/-! ## One header -/

section Header

variable {buf : Nat → Byte} {bs ds : List Byte} {m : Member} {n p v k : Nat}

theorem fill_at (h : k < bs.length) : fill buf bs k = bs.getD k 0 := by
  rw [fill, put_of_in (by omega), Nat.sub_zero]

theorem taken_fill (h : n ≤ bs.length) : taken (fill buf bs) n = bs.take n := by
  refine List.ext_getElem (by rw [taken, List.length_map, List.length_range,
    List.length_take, Nat.min_eq_left h]) fun k h₁ h₂ => ?_
  have hk : k < n := by
    rwa [taken, List.length_map, List.length_range] at h₁
  simp only [taken, List.getElem_map, List.getElem_range]
  rw [fill_at (by omega), List.getD_eq_getElem _ _ (by omega), List.getElem_take]

/-- **THE SIZE** is read. -/
theorem octal_eq : ∀ {ds : List Byte} {n p v : Nat}, StrAt buf p ds →
    ds.length < n → (∀ d ∈ ds, 48 ≤ d.toNat ∧ d.toNat < 56) →
    octal buf n p (BitVec.ofNat 32 v) = some (BitVec.ofNat 32 (value ds v)) := by
  intro ds
  induction ds with
  | nil =>
      intro n p v hstr hn _
      obtain ⟨n, rfl⟩ := Nat.exists_eq_add_of_lt hn
      rw [show [].length + n + 1 = n + 1 by simp, octal,
        if_pos (strAt_nil.mp hstr)]
      rfl
  | cons d ds ih =>
      intro n p v hstr hn hds
      obtain ⟨hd, hne, hrest⟩ := strAt_cons.mp hstr
      obtain ⟨n, rfl⟩ : ∃ k, n = k + 1 := ⟨n - 1, by omega⟩
      obtain ⟨hlo, hhi⟩ := hds d List.mem_cons_self
      have hdigit : d.signExtend 32 - 48 = BitVec.ofNat 32 (d.toNat - 48) := by
        have hall : ∀ k < 8, (BitVec.ofNat 8 (48 + k)).signExtend 32 - 48 =
            BitVec.ofNat 32 k := by decide
        have h := hall (d.toNat - 48) (by omega)
        rw [show 48 + (d.toNat - 48) = d.toNat by omega, BitVec.ofNat_toNat,
          BitVec.setWidth_eq] at h
        exact h
      rw [List.length_cons] at hn
      rw [octal, hd, if_neg hne, hdigit, show BitVec.ofNat 32 v * 8 +
        BitVec.ofNat 32 (d.toNat - 48) = BitVec.ofNat 32 (v * 8 + (d.toNat - 48))
        by rw [BitVec.ofNat_add, BitVec.ofNat_mul]; rfl]
      exact ih hrest (by omega) fun c hc => hds c (List.mem_cons_of_mem d hc)

/-- A string of the header is one of `buf`. -/
theorem strAt_fill (h : StrAt (at0 m.header) p ds) (hle : p + ds.length < 512) :
    StrAt (fill buf m.header) p ds :=
  strAt_move h fun k hk => fill_at (by rw [m.header_length]; omega)

/-- What `untar` finds in a header. -/
theorem header_read (m : Member) (buf : Nat → Byte) :
    fill buf m.header 0 ≠ 0 ∧
      octal (fill buf m.header) (CHUNK - 124) 124 0 =
        some (BitVec.ofNat 32 m.data.length) ∧
      readStr (fill buf m.header) CHUNK 0 = some m.name ∧
      fileOf m.name = m.name := by
  have hchunk : CHUNK = 8192 := rfl
  obtain ⟨hpos, hle⟩ := m.name_length
  have hname : StrAt (fill buf m.header) 0 m.name :=
    strAt_fill m.name_at (by omega)
  have hsize : StrAt (fill buf m.header) 124 m.digits :=
    strAt_fill m.size_at (by have := m.size_octal.1; omega)
  have hmem : m.name.getD 0 0 ∈ m.name := by
    rw [List.getD_eq_getElem _ _ (by omega)]
    exact List.getElem_mem _
  refine ⟨?_, ?_, readStr_eq_some.mpr ⟨hname, by omega⟩, if_neg fun h => ?_⟩
  · rw [hname.chars 0 (by omega)]
    exact m.name_at.noNul _ hmem
  · rw [show (0 : BitVec 32) = BitVec.ofNat 32 0 from rfl, octal_eq hsize
      (by have := m.size_octal.1; omega) m.size_octal.2, m.size_eq]
  · obtain ⟨ys, hys⟩ := List.head?_eq_some_iff.mp h
    exact m.name_plain (hys ▸ List.mem_cons_self)

end Header

/-! ## The data of one member -/

section Copy

variable {fd fdout n : Nat} {s t : Files (List Byte) Byte} {buf : Nat → Byte}
  {tar name pre w bs data padding rest : List Byte} {bytesLeft : Int}

/-- The other files stay, and so does the number of the next descriptor. -/
structure OthersKept (name : List Byte) (s t : Files (List Byte) Byte) : Prop where
  content : ∀ x, x ≠ name → t.content x = s.content x
  nextFd  : t.nextFd = s.nextFd

/-- **ONE CHUNK**: `bs` is the data of the chunk and what is read with it. -/
theorem copy_chunk (hfd : fdout ≠ fd) (hname : name ≠ tar)
    (htar : Ahead s fd tar pre (bs ++ rest)) (hout : Ahead s fdout name w [])
    {c : Nat} (hc : min (CHUNK : Int) bytesLeft = c) (hpos : 0 < c)
    (hle : c ≤ bs.length) (hbs : bs.length = ((c - 1) / 512 + 1) * 512)
    (n : Nat) (buf : Nat → Byte) :
    ∃ t, copy fd fdout (n + 1) bytesLeft buf s =
        copy fd fdout n (bytesLeft - c) (fill buf bs) t ∧
      Ahead t fd tar (pre ++ bs) rest ∧ Ahead t fdout name (w ++ bs.take c) [] ∧
      OthersKept name s t := by
  obtain ⟨s₁, hread, htar₁, hcont₁, hnext₁, hdesc₁⟩ := read_ahead htar
  have hout₁ : Ahead s₁ fdout name w ([] ++ []) :=
    ahead_congr hout (hdesc₁ fdout hfd) (congrFun hcont₁ name)
  obtain ⟨s₂, hwrite, hout₂, hnext₂, hcont₂, hdesc₂⟩ :=
    write_ahead (bs.take c) hout₁ (Or.inr ⟨rfl, rfl⟩)
  have hlen : (bs.take c).length = c := by
    rw [List.length_take, Nat.min_eq_left hle]
  have hcount : (((c : Int) - 1).tdiv SECTOR_SIZE + 1) * SECTOR_SIZE =
      (bs.length : Nat) := by
    rw [hbs, Int.tdiv_eq_ediv_of_nonneg (by omega), SECTOR_SIZE]
    omega
  have hne : bytesLeft ≠ 0 := by
    rintro rfl
    rw [CHUNK, SECTOR_SIZE] at hc
    omega
  refine ⟨s₂, ?_, ahead_congr htar₁ (hdesc₂ fd hfd.symm) (hcont₂ tar hname.symm),
    hout₂, ⟨fun x hx => ?_, hnext₂.trans hnext₁⟩⟩
  · rw [copy, if_neg hne]
    simp only [hc, hcount, Int.toNat_natCast, hread, taken_fill hle, hwrite, hlen]
    rw [if_neg (fun h => h rfl)]
  · rw [hcont₂ x hx, hcont₁]

/-- Nothing is left. -/
theorem copy_nothing (n : Nat) (buf : Nat → Byte) (s : Files (List Byte) Byte) :
    copy fd fdout (n + 1) 0 buf s = .ok (buf, s) := by
  rw [copy, if_pos rfl]
  rfl

/-- The last chunk, with the padding. -/
theorem copy_last (hfd : fdout ≠ fd) (hname : name ≠ tar)
    (htar : Ahead s fd tar pre (data ++ (padding ++ rest)))
    (hout : Ahead s fdout name w [])
    (hmod : (data.length + padding.length) % 512 = 0)
    (hpad : padding.length < 512) (hpos : 0 < data.length)
    (hle : data.length ≤ 8192) (n : Nat) (buf : Nat → Byte) :
    ∃ buf' t, copy fd fdout (n + 2) data.length buf s = .ok (buf', t) ∧
      Ahead t fd tar (pre ++ (data ++ padding)) rest ∧
      Ahead t fdout name (w ++ data) [] ∧ OthersKept name s t := by
  have hchunk : (CHUNK : Int) = 8192 := rfl
  rw [← List.append_assoc] at htar
  have hlen : (data ++ padding).length = data.length + padding.length :=
    List.length_append
  have hmin : min (CHUNK : Int) data.length = data.length := by omega
  obtain ⟨t, hstep, htar', hout', hkept⟩ := copy_chunk hfd hname htar hout hmin
    hpos (by omega) (by omega) (n + 1) buf
  rw [List.take_left] at hout'
  refine ⟨fill buf (data ++ padding), t, ?_, htar', hout', hkept⟩
  rw [hstep, Int.sub_self, copy_nothing]

/-- **THE DATA** are copied, and the padding is passed. -/
theorem copy_data (hfd : fdout ≠ fd) (hname : name ≠ tar) : ∀ {n : Nat}
    {data pre w : List Byte} {s : Files (List Byte) Byte} (buf : Nat → Byte),
    Ahead s fd tar pre (data ++ (padding ++ rest)) → Ahead s fdout name w [] →
    (data.length + padding.length) % 512 = 0 → padding.length < 512 →
    data.length ≤ 8192 * n →
    ∃ buf' t, copy fd fdout (n + 1) data.length buf s = .ok (buf', t) ∧
      Ahead t fd tar (pre ++ (data ++ padding)) rest ∧
      Ahead t fdout name (w ++ data) [] ∧ OthersKept name s t := by
  intro n data
  have hchunk : (CHUNK : Int) = 8192 := rfl
  rcases Nat.eq_zero_or_pos data.length with hzero | hpos
  · intro pre w s buf htar hout hmod hpad _
    obtain rfl : data = [] := List.length_eq_zero_iff.mp hzero
    obtain rfl : padding = [] := List.length_eq_zero_iff.mp (by
      rw [List.length_nil] at hmod
      omega)
    refine ⟨buf, s, copy_nothing n buf s, ?_, ?_, fun _ _ => rfl, rfl⟩
    · rw [List.append_nil, List.append_nil]
      exact htar
    · rw [List.append_nil]
      exact hout
  · induction n generalizing data with
    | zero =>
        intro pre w s buf _ _ _ _ hn
        omega
    | succ n ih =>
        intro pre w s buf htar hout hmod hpad hn
        rcases Nat.lt_or_ge 8192 data.length with hlong | hshort
        · -- a whole chunk, and the rest by induction
          have hlen : (data.take 8192).length = 8192 := by
            rw [List.length_take]
            omega
          have hdrop : (data.drop 8192).length = data.length - 8192 :=
            List.length_drop
          have hsplit : data.take 8192 ++ data.drop 8192 = data :=
            List.take_append_drop 8192 data
          have htar' : Ahead s fd tar pre (data.take 8192 ++
              (data.drop 8192 ++ (padding ++ rest))) := by
            rw [← List.append_assoc, hsplit]
            exact htar
          have hmin : min (CHUNK : Int) data.length = (8192 : Nat) := by omega
          obtain ⟨t, hstep, htar₁, hout₁, hkept₁⟩ := copy_chunk hfd hname htar'
            hout hmin (by omega) (by omega) hlen (n + 1) buf
          rw [List.take_of_length_le (Nat.le_of_eq hlen)] at hout₁
          obtain ⟨buf', t', hrun, htar₂, hout₂, hkept₂⟩ := ih (by omega)
            (fill buf (data.take 8192)) htar₁ hout₁ (by omega) hpad (by omega)
          refine ⟨buf', t', ?_, ?_, ?_, fun x hx => ?_,
            hkept₂.nextFd.trans hkept₁.nextFd⟩
          · rw [hstep, ← hrun, hdrop]
            congr 1
            omega
          · rw [← List.append_assoc, List.append_assoc pre, hsplit] at htar₂
            rwa [← List.append_assoc]
          · rw [List.append_assoc, hsplit] at hout₂
            exact hout₂
          · rw [hkept₂.content x hx, hkept₁.content x hx]
        · exact copy_last hfd hname htar hout hmod hpad hpos hshort n buf

end Copy

/-! ## The headers -/

section Headers

variable {fd n : Nat} {u : Untar} {m : Member} {ms : List Member}
  {pre more rest : List Byte}

/-- **ONE MEMBER**. -/
theorem extract_member (htar : Ahead u.files fd cmdTar pre (m.bytes ++ more))
    (hfd : fd < u.files.nextFd) (hn : 130 ≤ n) :
    ∃ u', extract fd (n + 1) u = extract fd n u' ∧
      Ahead u'.files fd cmdTar (pre ++ m.bytes) more ∧ fd < u'.files.nextFd ∧
      u'.files.content = Function.update u.files.content m.name (some m.data) ∧
      u'.i = u.i + 1 ∧ u'.headers = u.headers ++ [pre.length] := by
  rw [Member.bytes, List.append_assoc] at htar
  obtain ⟨hnul, hsize, hname, hfile⟩ := header_read m u.buf
  obtain ⟨s₁, hread, htar₁, hcont₁, hnext₁, -⟩ := read_ahead htar
  rw [m.header_length] at hread
  obtain ⟨s₂, hopen, hout₂, hnext₂, hcont₂, hdesc₂⟩ := open_trunc s₁ m.name
  have hne : s₁.nextFd ≠ fd := by omega
  have htar₂ : Ahead s₂ fd cmdTar (pre ++ m.header)
      (m.data ++ (m.padding ++ more)) := by
    rw [List.append_assoc] at htar₁
    exact ahead_congr htar₁ (hdesc₂ fd hne.symm) (hcont₂ cmdTar m.name_other.symm)
  obtain ⟨k, rfl⟩ : ∃ k, n = k + 1 := ⟨n - 1, by omega⟩
  have hle := m.size_le
  obtain ⟨buf', s₃, hcopy, htar₃, hout₃, hkept⟩ := copy_data (n := k) hne
    m.name_other (fill u.buf m.header) htar₂ hout₂ m.padded.1 m.padded.2
    (by omega)
  have hint : (BitVec.ofNat 32 m.data.length).toInt = m.data.length := by
    rw [BitVec.toInt_ofNat']
    exact Int.bmod_eq_of_le_mul_two (by omega) (by omega)
  refine ⟨⟨s₃.close s₁.nextFd, buf', u.i + 1, u.headers ++ [pre.length]⟩, ?_,
    ?_, ?_, funext fun x => ?_, rfl, rfl⟩
  · rw [extract]
    simp only [htar.desc, Option.map_some, Option.getD_some, SECTOR_SIZE, hread,
      m.header_length, hsize, hname, hfile, hopen, hint, hcopy]
    rw [if_neg (fun h => h rfl), if_neg hnul]
    rfl
  · refine ahead_congr ?_ (Function.update_of_ne hne.symm ..) rfl
    rw [Member.bytes, ← List.append_assoc]
    exact htar₃
  · show fd < s₃.nextFd
    rw [hkept.nextFd]
    omega
  · show s₃.content x = _
    by_cases hx : x = m.name
    · rw [hx, Function.update_self, hout₃.content, List.nil_append,
        List.append_nil]
    · rw [Function.update_of_ne hx, hkept.content x hx, hcont₂ x hx, hcont₁]

/-- **THE MEMBERS** one after the other, to the zero block. -/
theorem extract_members : ∀ {ms : List Member} {n : Nat} {u : Untar}
    {pre : List Byte}, Ahead u.files fd cmdTar pre (archive ms rest) →
    fd < u.files.nextFd → ms.length + 130 ≤ n →
    ∃ u' pre' rest', extract fd n u = .ok (true, u') ∧
      Ahead u'.files fd cmdTar pre' rest' ∧
      u'.files.content = extracted u.files.content ms ∧
      u'.i = u.i + ms.length ∧
      u'.headers = u.headers ++ offsets pre.length ms := by
  intro ms
  induction ms with
  | nil =>
      intro n u pre htar _ hn
      obtain ⟨n, rfl⟩ : ∃ k, n = k + 1 := ⟨n - 1, by omega⟩
      have hlen : (List.replicate 512 (0 : Byte)).length = 512 :=
        List.length_replicate
      obtain ⟨s, hread, htar', hcont, -⟩ := read_ahead htar
      rw [hlen] at hread
      have hnul : fill u.buf (List.replicate 512 0) 0 = 0 := by
        rw [fill_at (by omega)]
        rfl
      refine ⟨⟨s, fill u.buf (List.replicate 512 0), u.i,
        u.headers ++ [pre.length]⟩, _, _, ?_, htar', hcont, rfl, rfl⟩
      rw [extract]
      simp only [htar.desc, Option.map_some, Option.getD_some, SECTOR_SIZE,
        hread, hlen]
      rw [if_neg (fun h => h rfl), if_pos hnul]
      rfl
  | cons m ms ih =>
      intro n u pre htar hfd hn
      rw [List.length_cons] at hn
      obtain ⟨n, rfl⟩ : ∃ k, n = k + 1 := ⟨n - 1, by omega⟩
      obtain ⟨u₁, hstep, htar₁, hfd₁, hcont₁, hi₁, hheaders₁⟩ :=
        extract_member (n := n) htar hfd (by omega)
      obtain ⟨u₂, pre', rest', hrun, htar₂, hcont₂, hi₂, hheaders₂⟩ :=
        ih (n := n) htar₁ hfd₁ (by omega)
      refine ⟨u₂, pre', rest', hstep.trans hrun, htar₂, ?_, ?_, ?_⟩
      · rw [hcont₂, hcont₁]
        rfl
      · rw [hi₂, hi₁, List.length_cons]
        omega
      · rw [hheaders₂, hheaders₁, List.append_assoc, List.length_append]
        rfl

end Headers

/-! ## What is extracted -/

/-- "/cmd.tar" -/
def cmdTarPath : List Byte := 0x2f :: cmdTar

section Extraction

variable {ms : List Member} {m : Member} {before after : List Member}
  {c : List Byte → Option (List Byte)} {x rest : List Byte}
  {s : Files (List Byte) Byte}

/-- A name that no member has. -/
theorem extracted_other (h : ∀ m ∈ ms, m.name ≠ x) : extracted c ms x = c x := by
  induction ms generalizing c with
  | nil => rfl
  | cons m ms ih =>
      have hne := h m List.mem_cons_self
      rw [extracted, List.foldl_cons, ← extracted,
        ih fun m' hm' => h m' (List.mem_cons_of_mem m hm'),
        Function.update_of_ne hne.symm]

/-- **THE LAST MEMBER** of a name. -/
theorem extracted_last (h : ∀ m' ∈ after, m'.name ≠ m.name) :
    extracted c (before ++ m :: after) m.name = some m.data := by
  rw [extracted, List.foldl_append, List.foldl_cons, ← extracted,
    extracted_other h, Function.update_self]

theorem extracted_cmdTar (c : List Byte → Option (List Byte))
    (ms : List Member) : extracted c ms cmdTar = c cmdTar :=
  extracted_other fun m _ => m.name_other

theorem bytes_mod (m : Member) : m.bytes.length % 512 = 0 := by
  have hheader := m.header_length
  have hpadded := m.padded.1
  rw [Member.bytes, List.length_append, List.length_append]
  omega

/-- **ON SECTOR BOUNDARIES**. -/
theorem offsets_mod : ∀ {ms : List Member} {pos : Nat}, pos % 512 = 0 →
    ∀ p ∈ offsets pos ms, p % 512 = 0 := by
  intro ms
  induction ms with
  | nil =>
      intro pos h p hp
      obtain rfl := List.mem_singleton.mp hp
      exact h
  | cons m ms ih =>
      intro pos h p hp
      have hm := bytes_mod m
      rcases List.mem_cons.mp hp with rfl | hp
      · exact h
      · exact ih (by omega) p hp

/-- An archive begins with a header that is not empty, or with the zero
    block. -/
theorem archive_cons (ms : List Member) (rest : List Byte) :
    ∃ b l, archive ms rest = b :: l ∧ 511 ≤ l.length ∧ (ms = [] → b = 0) := by
  cases ms with
  | nil =>
      refine ⟨0, List.replicate 511 0 ++ rest, rfl, ?_, fun _ => rfl⟩
      rw [List.length_append, List.length_replicate]
      omega
  | cons m ms =>
      have hlen := m.header_length
      obtain ⟨b, l, hbl⟩ : ∃ b l, m.header = b :: l := by
        cases hh : m.header with
        | nil =>
            rw [hh] at hlen
            cases hlen
        | cons b l => exact ⟨b, l, rfl⟩
      rw [hbl, List.length_cons] at hlen
      refine ⟨b, l ++ (m.data ++ m.padding) ++ archive ms rest, ?_, ?_,
        fun h => nomatch h⟩
      · rw [archive, Member.bytes, hbl]
        rfl
      · rw [List.length_append, List.length_append]
        omega

/-- **ONE RUN**. -/
theorem untar_run {n : Nat} (buf : Nat → Byte)
    (hs : s.content cmdTar = some (archive ms rest)) (hn : ms.length + 130 ≤ n) :
    ∃ t l, untar n cmdTarPath buf s = .ok (t, offsets 0 ms) ∧
      (∀ x, x ≠ cmdTar → t.content x = extracted s.content ms x) ∧
      t.content cmdTar = some (0 :: l) ∧ 511 ≤ l.length := by
  obtain ⟨s₁, hopen, htar, hnext, hcont₁⟩ := open_old hs
  obtain ⟨u, pre, more, hrun, htar', hcont, hi, hheaders⟩ :=
    extract_members (u := ⟨s₁, buf, 0, []⟩) htar
      (by rw [hnext]; exact Nat.lt_succ_self _) hn
  obtain ⟨b, l, hbl, hlen, hempty⟩ := archive_cons ms rest
  rw [hcont₁] at hcont
  have hwhole : pre ++ more = b :: l := by
    have h := htar'.content
    rw [hcont, extracted_cmdTar, hs, hbl] at h
    exact (Option.some.inj h).symm
  rw [Nat.zero_add] at hi
  rcases Nat.eq_zero_or_pos ms.length with h0 | hpos
  · have hb := hempty (List.length_eq_zero_iff.mp h0)
    refine ⟨u.files.close s.nextFd, l, ?_, fun x _ => congrFun hcont x, ?_, hlen⟩
    · rw [untar, show fileOf cmdTarPath = cmdTar from rfl, hopen]
      simp only [hrun, bind, Except.bind]
      rw [if_neg (fun h => nomatch h), if_neg (fun h => h (by omega)), hheaders]
      rfl
    · show u.files.content cmdTar = _
      rw [htar'.content, hwhole, hb]
  · obtain ⟨hstart, hseek⟩ := lseek_start htar'
    rw [hwhole] at hstart
    have hfirst : Ahead (u.files.lseek s.nextFd 0) s.nextFd cmdTar []
        ([b] ++ l) := hstart
    obtain ⟨t, hwrite, hout, -, hkept, -⟩ := write_ahead [0] hfirst (Or.inl rfl)
    have htaken : taken (Function.update u.buf 0 0) 1 = [0] := by
      show [Function.update u.buf 0 0 0] = _
      rw [Function.update_self]
    refine ⟨t.close s.nextFd, l, ?_, fun x hx => ?_, hout.content, hlen⟩
    · rw [untar, show fileOf cmdTarPath = cmdTar from rfl, hopen]
      simp only [hrun, bind, Except.bind]
      rw [if_neg (fun h => nomatch h), if_pos (by omega)]
      simp only [htaken, hwrite, hheaders]
      rfl
    · show t.content x = _
      rw [hkept x hx, hseek, hcont]

/-- **ANOTHER RUN** finds the first byte cleared. -/
theorem untar_again {n : Nat} {l : List Byte} (buf : Nat → Byte)
    (hs : s.content cmdTar = some (0 :: l)) (hlen : 511 ≤ l.length) (hn : 0 < n) :
    ∃ t headers, untar n cmdTarPath buf s = .ok (t, headers) ∧
      t.content = s.content := by
  obtain ⟨s₁, hopen, htar, -, hcont₁⟩ := open_old hs
  have hsplit : 0 :: l = (0 :: l.take 511) ++ l.drop 511 := by
    rw [List.cons_append, List.take_append_drop]
  have htake : (0 :: l.take 511 : List Byte).length = 512 := by
    rw [List.length_cons, List.length_take, Nat.min_eq_left hlen]
  obtain ⟨n, rfl⟩ : ∃ k, n = k + 1 := ⟨n - 1, by omega⟩
  have hdesc := htar.desc
  rw [hsplit] at htar
  obtain ⟨s₂, hread, -, hcont₂, -⟩ := read_ahead htar
  rw [htake] at hread
  have hnul : fill buf (0 :: l.take 511) 0 = 0 := fill_at (by omega)
  refine ⟨s₂.close s.nextFd, [0], ?_, ?_⟩
  · rw [untar, show fileOf cmdTarPath = cmdTar from rfl, hopen]
    simp only [extract, hdesc, Option.map_some, Option.getD_some, SECTOR_SIZE,
      hread, htake, hnul, bind, Except.bind]
    rfl
  · show s₂.content = _
    rw [hcont₂, hcont₁]

/-- The last member of each name is its file, and the files of other names are
    as they were. -/
structure Extracts (ms : List Member) (s t : Files (List Byte) Byte) : Prop where
  members : ∀ before m after, ms = before ++ m :: after →
    (∀ m' ∈ after, m'.name ≠ m.name) → t.content m.name = some m.data
  others  : ∀ x, x ≠ cmdTar → (∀ m ∈ ms, m.name ≠ x) →
    t.content x = s.content x

/-- **THE ARCHIVE IS EXTRACTED**, with its headers read on sector boundaries,
    and only once. -/
theorem untar_extracts (hs : s.content cmdTar = some (archive ms rest)) :
    ∃ N, ∀ n, N ≤ n → ∀ buf, ∃ t headers,
      untar n cmdTarPath buf s = .ok (t, headers) ∧ Extracts ms s t ∧
      headers = offsets 0 ms ∧ (∀ p ∈ headers, p % SECTOR_SIZE = 0) ∧
      ∀ n', N ≤ n' → ∀ buf', ∃ t' headers',
        untar n' cmdTarPath buf' t = .ok (t', headers') ∧
          t'.content = t.content := by
  refine ⟨ms.length + 130, fun n hn buf => ?_⟩
  obtain ⟨t, l, hrun, hothers, htar, hlen⟩ := untar_run buf hs hn
  refine ⟨t, offsets 0 ms, hrun, ⟨fun before m after hms hafter => ?_,
    fun x hx hno => ?_⟩, rfl, offsets_mod rfl,
    fun n' hn' buf' => untar_again buf' htar hlen (by omega)⟩
  · rw [hothers _ m.name_other, hms]
    exact extracted_last hafter
  · rw [hothers x hx]
    exact extracted_other hno

end Extraction

/-- The header of a file "a" of one byte. -/
def demoHeader : List Byte :=
  (List.range 512).map fun k => if k = 0 then 0x61 else if k = 124 then 0x31 else 0

theorem demoHeader_at {k : Nat} (h : k < 512) : at0 demoHeader k =
    if k = 0 then 0x61 else if k = 124 then 0x31 else 0 := by
  rw [at0, demoHeader, List.getD_eq_getElem _ _ (by
    rwa [List.length_map, List.length_range]), List.getElem_map,
    List.getElem_range]

/-- A file `a` of one byte. -/
def demoMember : Member where
  name    := [0x61]
  header  := demoHeader
  digits  := [0x31]
  data    := [0x42]
  padding := List.replicate 511 0
  header_length := by rw [demoHeader, List.length_map, List.length_range]
  name_length := by decide
  name_plain  := by decide
  name_other  := by decide
  name_at     := strAt_cons.mpr ⟨demoHeader_at (by decide), by decide,
    strAt_nil.mpr (demoHeader_at (by decide))⟩
  size_at     := strAt_cons.mpr ⟨demoHeader_at (by decide), by decide,
    strAt_nil.mpr (demoHeader_at (by decide))⟩
  size_octal  := by decide
  size_eq     := by decide
  size_le     := by decide
  padded      := by
    rw [List.length_replicate]
    decide

/-- A disk with the archive alone. -/
def demoFiles : Files (List Byte) Byte where
  content := fun x =>
    if x = cmdTar then some (archive [demoMember, demoMember] []) else none
  desc    := fun _ => none
  nextFd  := 3

theorem demoFiles_cmdTar : demoFiles.content cmdTar =
    some (archive [demoMember, demoMember] []) := by
  simp only [demoFiles, if_true]

theorem untar_extracts_twice :
    ∃ N, ∀ n, N ≤ n → ∀ buf, ∃ t headers,
      untar n cmdTarPath buf demoFiles = .ok (t, headers) ∧
      Extracts [demoMember, demoMember] demoFiles t ∧
      headers = offsets 0 [demoMember, demoMember] ∧
      (∀ p ∈ headers, p % SECTOR_SIZE = 0) ∧
      ∀ n', N ≤ n' → ∀ buf', ∃ t' headers',
        untar n' cmdTarPath buf' t = .ok (t', headers') ∧
          t'.content = t.content :=
  untar_extracts demoFiles_cmdTar

end KosUntar
