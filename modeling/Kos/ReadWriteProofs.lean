import Kos.FileSystemProofs

/-! # Reading and writing files

    `do_read_write` of `task/fs/read_write.c`.  One loop serves both
    directions: it transfers chunks of sectors and copies between `fsbuf` and
    the caller.  The end of the range is clipped to choose the last sector;
    the number of bytes is bounded by the chunk only.

    * A loop that ends has found a place on the disk for every chunk
      (`rwLoop_cases`), and then moves what fits in its chunks
      (`rwLoop_run`);
    * a transfer that ends inside the limit moves all its bytes
      (`regular_run`); one that does not never stops at the limit
      (`regular_cases`). -/

namespace KosReadWrite

open FlatMemory (Byte)
open Overlay
open KosFs

/-! ## The functions -/

/-- The descriptor may read and write. -/
def O_RDWR : BitVec 32 := 2

/-- `FS_READ` and `FS_WRITE`. -/
inductive Io where
  | read
  | write
  deriving DecidableEq, Repr

/-- The variables of the loop; `buf` is the caller's memory from `buf` on. -/
structure Rw where
  posOff : Int
  bytesRw : Int
  bytesLeft : Int
  buf : Nat → Byte

/-- The size of a `phys_copy`: a negative one runs through all of memory. -/
def copySize (bytes : Int) : FsM Nat :=
  if 0 ≤ bytes then pure bytes.toNat else throw .fault

/-- The two `phys_copy`, and `WR_SECTS`. -/
def copyBytes (io : Io) (dev i chunk : Int) (bytes : Nat) (v : Rw) :
    FsM (Nat → Byte) :=
  match io with
  | .read => do
      let s ← get
      pure (put v.buf v.bytesRw.toNat bytes (drop s.fsbuf v.posOff.toNat))
  | .write => do
      setBuf fun b =>
        put b v.posOff.toNat bytes (drop v.buf v.bytesRw.toNat)
      wrSects dev i chunk.toNat
      pure v.buf

/-- The body of the loop. -/
def rwRound (io : Io) (dev : Int) (d : Fin NR_FILE_DESC) (chunk i : Int)
    (v : Rw) : FsM Rw := do
  let bytes := min v.bytesLeft (chunk * 512 - v.posOff)
  rdSects dev i chunk.toNat
  let n ← copySize bytes
  let buf ← copyBytes io dev i chunk n v
  modify fun s => s.updDesc d fun f => { f with pos := f.pos + bytes }
  pure { posOff := 0, bytesRw := v.bytesRw + bytes,
         bytesLeft := v.bytesLeft - bytes, buf := buf }

/-- The loop over the sectors, in rounds of `chunk` sectors. -/
def rwLoop (io : Io) (dev : Int) (d : Fin NR_FILE_DESC)
    (rwSectMax chunk : Int) : Nat → Int → Rw → FsM Rw
  | 0, i, v => if i ≤ rwSectMax then throw .spin else pure v
  | n + 1, i, v =>
      if i ≤ rwSectMax then do
        let v ← rwRound io dev d chunk i v
        rwLoop io dev d rwSectMax chunk n (i + chunk) v
      else pure v

/-- Where a transfer is to end: the end of the file, or of its sectors. -/
def limit (io : Io) (p : Inode) : BitVec 32 :=
  match io with
  | .read => p.fileSize
  | .write => p.nrSects * 512

/-- `pos_end`, with the comparison of `u32`. -/
def posEnd (io : Io) (p : Inode) (last : Int) : Int :=
  (if BitVec.ofInt 32 last < limit io p then BitVec.ofInt 32 last
    else limit io p).toInt

/-- `inode_sect_start + (pos >> SECTOR_SIZE_SHIFT)`. -/
def rwSect (p : Inode) (pos : Int) : Int :=
  (p.sectStart + BitVec.ofInt 32 (pos / 512)).toInt

/-- A position behind the end of the file becomes the end. -/
def growSize (i : Fin NR_INODE) (d : Fin NR_FILE_DESC) : FsM Unit := do
  let s ← get
  let pos := BitVec.ofInt 32 (s.fileDescTable d).pos
  if (s.inodeTable i).fileSize < pos then do
    modify fun s => s.updInode i fun p => { p with fileSize := pos }
    writeInode i
  else pure ()

/-- `do_read_write_regular`: the bytes moved and the caller's memory. -/
def doReadWriteRegular (io : Io) (i : Fin NR_INODE) (d : Fin NR_FILE_DESC)
    (len : Int) (buf : Nat → Byte) : FsM (Int × (Nat → Byte)) := do
  let s ← get
  let p := s.inodeTable i
  check (p.fileType = TYPE_REGULAR ∨ p.fileType = TYPE_DIRECTORY)
  let posStart := (s.fileDescTable d).pos
  let last ← intAdd posStart len
  let rwSectMin := rwSect p posStart
  let rwSectMax := rwSect p (posEnd io p last)
  let chunk := min (rwSectMax - rwSectMin + 1) 2048
  let v ← rwLoop io p.dev d rwSectMax chunk (rwSectMax - rwSectMin + 1).toNat
    rwSectMin
    { posOff := posStart.tmod 512, bytesRw := 0, bytesLeft := len, buf := buf }
  growSize i d
  pure (v.bytesRw, v.buf)

/-- `do_read_write_special`; `reply` is the count in the answer of TTY, and the
    caller's memory at that time. -/
def doReadWriteSpecial (i : Fin NR_INODE) (len : Int)
    (reply : Int × (Nat → Byte)) : FsM (Int × (Nat → Byte)) := do
  let s ← get
  check ((s.inodeTable i).sectStart >>> 8 &&& 0xFF = 4)
  check (reply.1 = len)
  pure reply

/-- The index of `file_desc[fd]`. -/
def fdSlot (fd : Int) : FsM (Fin NR_FILES) :=
  if h : fd.toNat < NR_FILES ∧ 0 ≤ fd then pure ⟨fd.toNat, h.1⟩
  else throw .fault

/-- `do_read_write`. -/
def doReadWrite (io : Io) (pid fd len : Int) (reply : Int × (Nat → Byte))
    (buf : Nat → Byte) : FsM (Int × (Nat → Byte)) := do
  let k ← fdSlot fd
  let s ← get
  match s.fileDesc pid k with
  | none => throw .assertionFailure
  | some d =>
      if (s.fileDescTable d).mode &&& O_RDWR = 0 then pure (0, buf)
      else
        match (s.fileDescTable d).inode with
        | none => throw .assertionFailure
        | some i =>
            if (s.inodeTable i).fileType &&& TYPE_MASK = TYPE_SPECIAL_CHAR then
              doReadWriteSpecial i len reply
            else doReadWriteRegular io i d len buf

/-- From where a seek counts. -/
def SEEK_SET : Int := 1
def SEEK_CUR : Int := 2
def SEEK_END : Int := 3

/-- The `switch` of `do_lseek`. -/
def seekPos (pos fSize off whence : Int) : FsM (Option Int) :=
  if whence = SEEK_SET then pure (some off)
  else if whence = SEEK_CUR then some <$> intAdd pos off
  else if whence = SEEK_END then some <$> intAdd fSize off
  else pure none

/-- `do_lseek`. -/
def doLseek (pid fd off whence : Int) : FsM Int := do
  let k ← fdSlot fd
  let s ← get
  match s.fileDesc pid k with
  | none => throw .fault
  | some d =>
      match (s.fileDescTable d).inode with
      | none => throw .fault
      | some i => do
          let fSize := (s.inodeTable i).fileSize.toInt
          let target ← seekPos (s.fileDescTable d).pos fSize off whence
          match target with
          | none => pure (-1)
          | some pos =>
              if fSize < pos ∨ pos < 0 then pure (-1)
              else do
                modify fun s => s.updDesc d fun f => { f with pos := pos }
                pure pos

/-! ## The loop -/

/-- The device after `n` bytes have been moved at byte `a`. -/
def diskAfter (io : Io) (f : Nat → Byte) (a n : Nat) (g : Nat → Byte) :
    Nat → Byte :=
  match io with
  | .read => f
  | .write => put f a n g

/-- The caller's memory from `w` on. -/
def bufAfter (io : Io) (buf : Nat → Byte) (w n : Nat) (f : Nat → Byte) :
    Nat → Byte :=
  match io with
  | .read => put buf w n f
  | .write => buf

/-- Two moves that meet are one; a second move of nothing is anywhere. -/
theorem diskAfter_diskAfter {io : Io} {f g : Nat → Byte} {a a' n m : Nat}
    (h : m = 0 ∨ a' = a + n) :
    diskAfter io (diskAfter io f a n g) a' m (drop g n) =
      diskAfter io f a (n + m) g := by
  cases io with
  | read => rfl
  | write =>
      rw [diskAfter, diskAfter, diskAfter]
      rcases h with rfl | rfl
      · rw [put_zero, Nat.add_zero]
      · exact put_put_append

theorem bufAfter_bufAfter {io : Io} {buf f : Nat → Byte} {a a' w n m : Nat}
    (h : m = 0 ∨ a' = a + n) :
    bufAfter io (bufAfter io buf w n (drop f a)) (w + n) m (drop f a') =
      bufAfter io buf w (n + m) (drop f a) := by
  cases io with
  | read =>
      rw [bufAfter, bufAfter, bufAfter]
      rcases h with rfl | rfl
      · rw [put_zero, Nat.add_zero]
      · rw [← drop_drop, put_put_append]
  | write => rfl

/-- What is read comes from the device as it was. -/
theorem bufAfter_disk {io : Io} {buf f g : Nat → Byte} {a a' w n m : Nat} :
    bufAfter io buf w m (drop (diskAfter io f a n g) a') =
      bufAfter io buf w m (drop f a') := by
  cases io <;> rfl

/-- What is written comes from the caller's memory as it was. -/
theorem diskAfter_buf {io : Io} {buf f g : Nat → Byte} {a w n m k : Nat} :
    diskAfter io f a m (drop (bufAfter io buf w n g) k) =
      diskAfter io f a m (drop buf k) := by
  cases io <;> rfl

/-- The device `dev` has become `f`, the descriptor has moved by `n`, and the
    rest is as it was, `fsbuf` and the requests apart. -/
structure Moved (s s' : Fs) (dev : Int) (d : Fin NR_FILE_DESC)
    (f : Nat → Byte) (n : Nat) : Prop where
  disk : s'.disk = Function.update s.disk dev f
  descs : s'.fileDescTable = Function.update s.fileDescTable d
    { s.fileDescTable d with pos := (s.fileDescTable d).pos + n }
  inodes : s'.inodeTable = s.inodeTable
  supers : s'.superBlockTable = s.superBlockTable
  slots : s'.fileDesc = s.fileDesc
  root : s'.rootInode = s.rootInode

theorem moved_zero (s : Fs) (dev : Int) (d : Fin NR_FILE_DESC) :
    Moved s s dev d (s.disk dev) 0 := by
  refine ⟨?_, ?_, rfl, rfl, rfl, rfl⟩
  · rw [Function.update_eq_self]
  · rw [Int.natCast_zero, Int.add_zero, Function.update_eq_self]

theorem moved_trans {s s₁ s₂ : Fs} {dev : Int} {d : Fin NR_FILE_DESC}
    {f₁ f₂ : Nat → Byte} {n₁ n₂ : Nat} (h₁ : Moved s s₁ dev d f₁ n₁)
    (h₂ : Moved s₁ s₂ dev d f₂ n₂) : Moved s s₂ dev d f₂ (n₁ + n₂) := by
  refine ⟨?_, ?_, h₂.inodes.trans h₁.inodes, h₂.supers.trans h₁.supers,
    h₂.slots.trans h₁.slots, h₂.root.trans h₁.root⟩
  · rw [h₂.disk, h₁.disk, Function.update_idem]
  · rw [h₂.descs, h₁.descs, Function.update_idem, Function.update_self,
      Int.natCast_add, Int.add_assoc]

section Loop

variable {io : Io} {dev : Int} {d : Fin NR_FILE_DESC} {s s' : Fs}

theorem run_copySize {bytes : Int} {n : Nat} :
    copySize bytes s = .ok n s' ↔ 0 ≤ bytes ∧ bytes.toNat = n ∧ s = s' := by
  unfold copySize
  by_cases h : 0 ≤ bytes
  · rw [if_pos h, run_pure]
    constructor
    · intro hr; cases hr; exact ⟨h, rfl, rfl⟩
    · rintro ⟨-, rfl, rfl⟩; rfl
  · rw [if_neg h]
    constructor
    · intro hr; cases hr
    · rintro ⟨hn, -⟩; exact absurd hn h

/-- The copy of `n` bytes inside a chunk that has been read. -/
theorem copyBytes_run (io : Io) (dev : Int) (s : Fs) {a o c n : Nat}
    (w : Nat) (left : Int) (buf : Nat → Byte) {b : Nat → Byte}
    (ha : a * 512 < 2147483648) (ho : o + n ≤ 512 * c)
    (hb : s.fsbuf = put b 0 (512 * c) (drop (s.disk dev) (512 * a))) :
    ∃ s', copyBytes io dev a c n ⟨o, w, left, buf⟩ s =
        .ok (bufAfter io buf w n (drop (s.disk dev) (512 * a + o))) s' ∧
      s'.disk = Function.update s.disk dev
        (diskAfter io (s.disk dev) (512 * a + o) n (drop buf w)) ∧
      s'.fileDescTable = s.fileDescTable ∧ s'.inodeTable = s.inodeTable ∧
      s'.superBlockTable = s.superBlockTable ∧ s'.fileDesc = s.fileDesc ∧
      s'.rootInode = s.rootInode := by
  have haddr : Addressed (a : Int) := ⟨by omega, by omega⟩
  cases io with
  | read =>
      refine ⟨s, ?_, ?_, rfl, rfl, rfl, rfl, rfl⟩
      · simp only [copyBytes, run_bind, run_get]
        refine ⟨s, s, ⟨rfl, rfl⟩, ?_⟩
        rw [run_pure, bufAfter]
        congr 1
        refine put_congr fun k hk => ?_
        rw [drop, hb, Int.toNat_natCast, put_of_in (by omega), drop, drop,
          Nat.sub_zero, Nat.add_assoc]
      · rw [diskAfter, Function.update_eq_self]
  | write =>
      simp only [copyBytes, run_bind, run_setBuf, run_wrSects]
      refine ⟨_, ⟨(), _, rfl, (), _, ⟨haddr, rfl⟩, rfl⟩, ?_, rfl, rfl, rfl,
        rfl, rfl⟩
      simp only [Int.toNat_natCast, diskAfter, hb, put_block ho]

/-- **ONE ROUND** moves what fits in the chunk from the offset on. -/
theorem rwRound_run (io : Io) (dev : Int) (d : Fin NR_FILE_DESC) (s : Fs)
    {a o c left n : Nat} (w : Nat) (buf : Nat → Byte)
    (ha : a * 512 < 2147483648) (ho : o ≤ c * 512)
    (hn : n = min left (c * 512 - o)) :
    ∃ s', rwRound io dev d c a ⟨o, w, left, buf⟩ s =
        .ok ⟨0, (w + n : Nat), (left - n : Nat),
          bufAfter io buf w n (drop (s.disk dev) (512 * a + o))⟩ s' ∧
      Moved s s' dev d
        (diskAfter io (s.disk dev) (512 * a + o) n (drop buf w)) n := by
  have haddr : Addressed (a : Int) := ⟨by omega, by omega⟩
  have hbytes : min (left : Int) ((c : Int) * 512 - o) = n := by omega
  obtain ⟨t, hcopy, hdisk, hdesc, hino, hsup, hslots, hroot⟩ :=
    copyBytes_run io dev { s with fsbuf := put s.fsbuf 0 (512 * c)
                                    (drop (s.disk dev) (512 * a)) } w left buf
      ha (show o + n ≤ 512 * c by omega) rfl
  refine ⟨t.updDesc d fun f => { f with pos := f.pos + n }, ?_, ?_⟩
  · simp only [rwRound, hbytes, run_bind, run_rdSects, run_copySize,
      run_modify, Int.toNat_natCast]
    refine ⟨(), _, ⟨haddr, rfl⟩, n, _, ⟨by omega, rfl, rfl⟩, _, t, hcopy, (),
      _, rfl, ?_⟩
    rw [run_pure, Int.natCast_add, Int.natCast_sub (show n ≤ left by omega)]
  · refine ⟨hdisk, ?_, hino, hsup, hslots, hroot⟩
    rw [Fs.updDesc, hdesc]

/-- **THE LOOP** runs `N` rounds and moves what fits in their chunks. -/
theorem rwLoop_run (io : Io) (dev : Int) (d : Fin NR_FILE_DESC)
    {c N : Nat} {rwSectMax : Int} :
    ∀ {n a o left T : Nat} (w : Nat) (buf : Nat → Byte) (s : Fs), N ≤ n →
      (∀ k < N, ((a + k * c : Nat) : Int) ≤ rwSectMax ∧
        (a + k * c) * 512 < 2147483648) →
      rwSectMax < (a + N * c : Nat) → o ≤ c * 512 →
      T = min left (N * (c * 512) - o) →
      ∃ o' s', rwLoop io dev d rwSectMax c n a ⟨o, w, left, buf⟩ s =
          .ok ⟨o', (w + T : Nat), (left - T : Nat),
            bufAfter io buf w T (drop (s.disk dev) (512 * a + o))⟩ s' ∧
        Moved s s' dev d
          (diskAfter io (s.disk dev) (512 * a + o) T (drop buf w)) T := by
  induction N with
  | zero =>
      intro n a o left T w buf s _ _ hout _ hT
      have hstop : ¬ (a : Int) ≤ rwSectMax := by omega
      obtain rfl : T = 0 := by omega
      have hbuf : bufAfter io buf w 0 (drop (s.disk dev) (512 * a + o)) =
          buf := by
        cases io with
        | read => exact put_zero ..
        | write => rfl
      have hdisk : diskAfter io (s.disk dev) (512 * a + o) 0 (drop buf w) =
          s.disk dev := by
        cases io with
        | read => rfl
        | write => exact put_zero ..
      refine ⟨o, s, ?_, ?_⟩
      · rw [hbuf]
        cases n <;> rw [rwLoop, if_neg hstop] <;> rfl
      · rw [hdisk]
        exact moved_zero s dev d
  | succ N ih =>
      intro n a o left T w buf s hn hin hout ho hT
      obtain ⟨n, rfl⟩ : ∃ k, n = k + 1 := ⟨n - 1, by omega⟩
      have hfirst := hin 0 (by omega)
      rw [Nat.zero_mul, Nat.add_zero] at hfirst
      obtain ⟨b, hb⟩ : ∃ b, b = min left (c * 512 - o) := ⟨_, rfl⟩
      obtain ⟨s₁, hround, hmoved⟩ := rwRound_run io dev d s w buf hfirst.2
        ho hb
      have hsucc : (N + 1) * (c * 512) = N * (c * 512) + c * 512 :=
        Nat.succ_mul N (c * 512)
      obtain ⟨T₂, hT₂⟩ : ∃ T₂, T₂ = min (left - b) (N * (c * 512) - 0) :=
        ⟨_, rfl⟩
      -- the first round fills its chunk, or moves everything
      have hmeet : T₂ = 0 ∨ 512 * (a + c) = 512 * a + o + b := by omega
      have htotal : T = b + T₂ := by omega
      have hnext : ∀ k < N, ((a + c + k * c : Nat) : Int) ≤ rwSectMax ∧
          (a + c + k * c) * 512 < 2147483648 := by
        intro k hk
        have h := hin (k + 1) (by omega)
        rwa [Nat.succ_mul, Nat.add_comm (k * c), ← Nat.add_assoc] at h
      have hlast : rwSectMax < (a + c + N * c : Nat) := by
        rwa [Nat.succ_mul, Nat.add_comm (N * c), ← Nat.add_assoc] at hout
      obtain ⟨o', s₂, hloop, hmoved₂⟩ := ih (w + b)
        (bufAfter io buf w b (drop (s.disk dev) (512 * a + o))) s₁
        (show N ≤ n by omega) hnext hlast (show 0 ≤ c * 512 by omega) hT₂
      have hdev : s₁.disk dev = diskAfter io (s.disk dev) (512 * a + o) b
          (drop buf w) := by
        rw [hmoved.disk, Function.update_self]
      rw [hdev, bufAfter_disk, Nat.add_zero, bufAfter_bufAfter hmeet,
        ← htotal, Nat.add_assoc, ← htotal, Nat.sub_sub, ← htotal] at hloop
      rw [hdev, diskAfter_buf, Nat.add_zero, ← drop_drop,
        diskAfter_diskAfter hmeet, ← htotal] at hmoved₂
      refine ⟨o', s₂, ?_, ?_⟩
      · rw [rwLoop, if_pos hfirst.1, run_bind_of hround]
        exact hloop
      · have h := moved_trans hmoved hmoved₂
        rwa [← htotal] at h

/-! ### Loops that end -/

theorem copyBytes_frame {i chunk : Int} {n : Nat} {v : Rw} {buf : Nat → Byte}
    (h : copyBytes io dev i chunk n v s = .ok buf s') :
    s'.fileDescTable = s.fileDescTable ∧ s'.inodeTable = s.inodeTable ∧
      s'.superBlockTable = s.superBlockTable := by
  cases io with
  | read =>
      simp only [copyBytes, run_bind, run_get, run_pure,
        EStateM.Result.ok.injEq] at h
      obtain ⟨_, _, ⟨rfl, rfl⟩, -, rfl⟩ := h
      exact ⟨rfl, rfl, rfl⟩
  | write =>
      simp only [copyBytes, run_bind, run_setBuf, run_wrSects, run_pure,
        EStateM.Result.ok.injEq] at h
      obtain ⟨_, _, rfl, _, _, ⟨-, rfl⟩, -, rfl⟩ := h
      exact ⟨rfl, rfl, rfl⟩

/-- `n` more bytes have been moved, no more than were left. -/
structure Passed (d : Fin NR_FILE_DESC) (v v' : Rw) (s s' : Fs) (n : Nat) :
    Prop where
  moved : v'.bytesRw = v.bytesRw + n
  left : v'.bytesLeft = v.bytesLeft - n
  bound : (n : Int) ≤ v.bytesLeft ∨ n = 0
  pos : (s'.fileDescTable d).pos = (s.fileDescTable d).pos + n
  inodes : s'.inodeTable = s.inodeTable
  supers : s'.superBlockTable = s.superBlockTable

theorem rwRound_cases {chunk i : Int} {v v' : Rw}
    (h : rwRound io dev d chunk i v s = .ok v' s') :
    Addressed i ∧ ∃ n, Passed d v v' s s' n := by
  simp only [rwRound, run_bind, run_rdSects, run_copySize, run_modify,
    run_pure, EStateM.Result.ok.injEq] at h
  obtain ⟨_, _, ⟨haddr, rfl⟩, n, _, ⟨h0, hn, rfl⟩, buf, t, hcopy, _, _, rfl,
    rfl, rfl⟩ := h
  obtain ⟨hdesc, hino, hsup⟩ := copyBytes_frame hcopy
  have hbytes : min v.bytesLeft (chunk * 512 - v.posOff) = n := by omega
  refine ⟨haddr, n, ?_, ?_, Or.inl (by omega), ?_, hino, hsup⟩
  · dsimp only
    rw [hbytes]
  · dsimp only
    rw [hbytes]
  · rw [updDesc_self, hdesc, hbytes]

/-- A loop that ends has found a place for every chunk. -/
theorem rwLoop_cases {rwSectMax chunk : Int} (hc : 0 < chunk) :
    ∀ {n : Nat} {i : Int} {v v' : Rw} {s s' : Fs},
      rwLoop io dev d rwSectMax chunk n i v s = .ok v' s' →
      (∀ k : Nat, i + k * chunk ≤ rwSectMax → Addressed (i + k * chunk)) ∧
        ∃ m, Passed d v v' s s' m := by
  -- a round behind the last sector is none
  have hend : ∀ {i : Int} {v v' : Rw} {s s' : Fs}, ¬ i ≤ rwSectMax →
      v = v' → s = s' →
      (∀ k : Nat, i + k * chunk ≤ rwSectMax → Addressed (i + k * chunk)) ∧
        ∃ m, Passed d v v' s s' m := by
    rintro i v v' s s' hi rfl rfl
    refine ⟨fun k hk => ?_, 0, ?_, ?_, Or.inr rfl, ?_, rfl, rfl⟩
    · have h0 : 0 ≤ (k : Int) * chunk := Int.mul_nonneg (by omega) (by omega)
      omega
    all_goals omega
  intro n
  induction n with
  | zero =>
      intro i v v' s s' h
      rw [rwLoop] at h
      split at h
      · cases h
      · rename_i hi
        cases h
        exact hend hi rfl rfl
  | succ n ih =>
      intro i v v' s s' h
      rw [rwLoop] at h
      split at h
      · obtain ⟨v₁, s₁, hround, hloop⟩ := run_bind.mp h
        obtain ⟨haddr, m₁, h₁⟩ := rwRound_cases hround
        obtain ⟨hrest, m₂, h₂⟩ := ih hloop
        refine ⟨fun k hk => ?_, m₁ + m₂, ?_, ?_, ?_, ?_,
          h₂.inodes.trans h₁.inodes, h₂.supers.trans h₁.supers⟩
        · cases k with
          | zero => simpa using haddr
          | succ k =>
              have hk' : i + ((k + 1 : Nat) : Int) * chunk =
                  i + chunk + k * chunk := by
                rw [Int.natCast_succ, Int.add_mul, Int.one_mul]
                omega
              rw [hk'] at hk ⊢
              exact hrest k hk
        · rw [h₂.moved, h₁.moved]
          omega
        · rw [h₂.left, h₁.left]
          omega
        · have hb₁ := h₁.bound
          have hb₂ := h₂.bound
          rw [h₁.left] at hb₂
          omega
        · rw [h₂.pos, h₁.pos]
          omega
      · rename_i hi
        cases h
        exact hend hi rfl rfl

end Loop

/-! ## Positions and sectors -/

section Range

variable {io : Io} {p : Inode}

theorem posEnd_eq {last : Nat} (h : last < 2147483648) :
    posEnd io p last = (min last (limit io p).toNat : Nat) := by
  have hlast : (BitVec.ofInt 32 (last : Int)).toNat = last := by
    rw [BitVec.ofInt_natCast, BitVec.toNat_ofNat, Nat.mod_eq_of_lt (by omega)]
  rw [posEnd]
  by_cases hlt : BitVec.ofInt 32 (last : Int) < limit io p
  · rw [if_pos hlt, BitVec.toInt_eq_toNat_of_lt (by omega), hlast]
    rw [BitVec.lt_def, hlast] at hlt
    omega
  · rw [if_neg hlt]
    rw [BitVec.lt_def, hlast] at hlt
    rw [BitVec.toInt_eq_toNat_of_lt (by omega)]
    omega

/-- The sector of a position, when sectors have `u32` numbers. -/
theorem rwSect_eq {q : Nat} (h : p.sectStart.toNat + q / 512 < 4294967296) :
    rwSect p q = if p.sectStart.toNat + q / 512 < 2147483648 then
        ((p.sectStart.toNat + q / 512 : Nat) : Int)
      else (p.sectStart.toNat + q / 512 : Nat) - 4294967296 := by
  have hq : (q : Int) / 512 = (q / 512 : Nat) := by omega
  have hsum : (p.sectStart + BitVec.ofInt 32 ((q : Int) / 512)).toNat =
      p.sectStart.toNat + q / 512 := by
    rw [hq, BitVec.ofInt_natCast, BitVec.toNat_add, BitVec.toNat_ofNat]
    omega
  rw [rwSect, BitVec.toInt_eq_toNat_cond, hsum]
  by_cases hlt : p.sectStart.toNat + q / 512 < 2147483648
  · rw [if_pos hlt, if_pos (by omega)]
  · rw [if_neg hlt, if_neg (by omega)]
    rfl

end Range

/-- The first sector of the last chunk of a transfer. -/
def lastChunk (p : Inode) (pos len : Int) : Int :=
  p.sectStart.toNat + pos / 512 +
    ((pos + len) / 512 - pos / 512) / 2048 * 2048

/-- Every chunk of a transfer has a place on the disk. -/
def Addressable (p : Inode) (pos len : Int) : Prop :=
  pos + len < 2147483648 ∧ lastChunk p pos len < 4194304

instance (p : Inode) (pos len : Int) : Decidable (Addressable p pos len) :=
  inferInstanceAs (Decidable (_ ∧ _))

/-- The chunks that cover the sectors from `a` to `b`. -/
theorem chunks {a b c : Nat} (hab : a ≤ b) (hc : c = min (b - a + 1) 2048) :
    ∃ N, 0 < c ∧ 0 < N ∧ N ≤ b - a + 1 ∧ b - a < N * c ∧
      (N - 1) * c = (b - a) / 2048 * 2048 := by
  refine ⟨(b - a) / c + 1, by omega, Nat.succ_pos _, ?_, ?_, ?_⟩
  · have := Nat.div_le_self (b - a) c
    omega
  · rw [Nat.mul_comm]
    exact Nat.lt_mul_div_succ _ (by omega)
  · rw [Nat.add_sub_cancel]
    rcases Nat.lt_or_ge (b - a) 2048 with h | h
    · rw [Nat.div_eq_of_lt (show b - a < c by omega), Nat.div_eq_of_lt h,
        Nat.zero_mul, Nat.zero_mul]
    · rw [show c = 2048 by omega]

section Regular

variable {io : Io} {s s' : Fs} {i : Fin NR_INODE} {d : Fin NR_FILE_DESC}

/-- The transfer from byte `pos` on, when the sector of its end is not before
    that of its start and has a number that is an `int`. -/
theorem rwLoop_regular (io : Io) (d : Fin NR_FILE_DESC) (s : Fs) {p : Inode}
    {pos last left T c N : Nat} (buf : Nat → Byte) (hlast : pos / 512 ≤ last / 512)
    (hsect : p.sectStart.toNat + last / 512 < 2147483648)
    (hc : c = min (last / 512 - pos / 512 + 1) 2048)
    (hN : 0 < N ∧ N ≤ last / 512 - pos / 512 + 1 ∧
      last / 512 - pos / 512 < N * c ∧
      (N - 1) * c = (last / 512 - pos / 512) / 2048 * 2048)
    (haddr : p.sectStart.toNat + pos / 512 +
      (last / 512 - pos / 512) / 2048 * 2048 < 4194304)
    (hT : T = min left (N * (c * 512) - pos % 512)) :
    ∃ o' t, rwLoop io p.dev d (rwSect p last)
          (min (rwSect p last - rwSect p pos + 1) 2048)
          (rwSect p last - rwSect p pos + 1).toNat (rwSect p pos)
          ⟨(pos : Int).tmod 512, 0, left, buf⟩ s =
        .ok ⟨o', T, (left - T : Nat), bufAfter io buf 0 T
          (drop (s.disk p.dev) (512 * p.sectStart.toNat + pos))⟩ t ∧
      Moved s t p.dev d (diskAfter io (s.disk p.dev)
        (512 * p.sectStart.toNat + pos) T buf) T := by
  obtain ⟨hN0, hNle, hcover, hlastN⟩ := hN
  have hmin : rwSect p pos = (p.sectStart.toNat + pos / 512 : Nat) := by
    rw [rwSect_eq (by omega), if_pos (by omega)]
  have hmax : rwSect p last = (p.sectStart.toNat + last / 512 : Nat) := by
    rw [rwSect_eq (by omega), if_pos (by omega)]
  have hchunk : min (rwSect p last - rwSect p pos + 1) 2048 = (c : Int) := by
    rw [hmin, hmax]
    omega
  have hoff : (pos : Int).tmod 512 = (pos % 512 : Nat) := by
    rw [Int.tmod_eq_emod_of_nonneg (by omega)]
    omega
  have hround : ∀ k < N, k * c ≤ (N - 1) * c := fun k hk =>
    Nat.mul_le_mul_right c (by omega)
  have hle : (N - 1) * c ≤ last / 512 - pos / 512 := by
    rw [hlastN]
    exact Nat.div_mul_le_self _ _
  have hbyte : 512 * (p.sectStart.toNat + pos / 512) + pos % 512 =
      512 * p.sectStart.toNat + pos := by
    omega
  have hfuel : N ≤ (rwSect p last - rwSect p pos + 1).toNat := by
    rw [hmin, hmax]
    omega
  have hrounds : ∀ k < N, ((p.sectStart.toNat + pos / 512 + k * c : Nat) : Int) ≤
        rwSect p last ∧
      (p.sectStart.toNat + pos / 512 + k * c) * 512 < 2147483648 := by
    intro k hk
    have := hround k hk
    rw [hmax]
    omega
  have hlastN' : rwSect p last <
      (p.sectStart.toNat + pos / 512 + N * c : Nat) := by
    rw [hmax]
    omega
  have hloop := rwLoop_run io p.dev d 0 buf s hfuel hrounds hlastN'
    (show pos % 512 ≤ c * 512 by omega) hT
  rw [hbyte, Nat.zero_add] at hloop
  obtain ⟨o', t, hrun, hmoved⟩ := hloop
  refine ⟨o', t, ?_, ?_⟩
  · rw [hchunk, hoff, hmin]
    rw [hmin] at hrun
    exact hrun
  · have hdrop : drop buf 0 = buf := by
      funext k
      rw [drop, Nat.zero_add]
    rwa [hdrop] at hmoved

/-- The size of the file is that of the position, if that is more. -/
theorem run_growSize {u : Unit} : growSize i d s = .ok u s' ↔
    ((s.inodeTable i).fileSize < BitVec.ofInt 32 (s.fileDescTable d).pos ∧
      ∃ sb, s.superOf (s.inodeTable i).dev = some sb ∧
        Stored sb (s.inodeTable i).nr ∧
        s' = (s.updInode i fun p => { p with
          fileSize := BitVec.ofInt 32 (s.fileDescTable d).pos }).written i sb) ∨
    (¬ (s.inodeTable i).fileSize < BitVec.ofInt 32 (s.fileDescTable d).pos ∧
      s = s') := by
  simp only [growSize, run_bind, run_get]
  by_cases h : (s.inodeTable i).fileSize <
      BitVec.ofInt 32 (s.fileDescTable d).pos
  · constructor
    · rintro ⟨_, _, ⟨rfl, rfl⟩, hrun⟩
      rw [if_pos h, run_bind] at hrun
      obtain ⟨_, _, hmod, hw⟩ := hrun
      obtain rfl := run_modify.mp hmod
      obtain ⟨sb, hsb, hst, rfl⟩ := run_writeInode.mp hw
      rw [updInode_self] at hsb hst
      exact Or.inl ⟨h, sb, hsb, hst, rfl⟩
    · rintro (⟨-, sb, hsb, hst, rfl⟩ | ⟨hn, -⟩)
      · refine ⟨s, s, ⟨rfl, rfl⟩, ?_⟩
        rw [if_pos h, run_bind]
        refine ⟨(), _, run_modify.mpr rfl, ?_⟩
        refine run_writeInode.mpr ⟨sb, ?_, ?_, rfl⟩ <;> rw [updInode_self]
        · exact hsb
        · exact hst
      · exact absurd h hn
  · constructor
    · rintro ⟨_, _, ⟨rfl, rfl⟩, hrun⟩
      rw [if_neg h] at hrun
      cases hrun
      exact Or.inr ⟨h, rfl⟩
    · rintro (⟨hp, -⟩ | ⟨-, rfl⟩)
      · exact absurd hp h
      · refine ⟨s, s, ⟨rfl, rfl⟩, ?_⟩
        rw [if_neg h]
        rfl

theorem run_regular {len ret : Int} {buf buf' : Nat → Byte} {p : Inode}
    {pos : Int} (hp : s.inodeTable i = p) (hpos : (s.fileDescTable d).pos = pos) :
    doReadWriteRegular io i d len buf s = .ok (ret, buf') s' ↔
      (p.fileType = TYPE_REGULAR ∨ p.fileType = TYPE_DIRECTORY) ∧
      (-2147483648 ≤ pos + len ∧ pos + len < 2147483648) ∧
      ∃ v t, rwLoop io p.dev d (rwSect p (posEnd io p (pos + len)))
          (min (rwSect p (posEnd io p (pos + len)) - rwSect p pos + 1) 2048)
          (rwSect p (posEnd io p (pos + len)) - rwSect p pos + 1).toNat
          (rwSect p pos) ⟨pos.tmod 512, 0, len, buf⟩ s = .ok v t ∧
        growSize i d t = .ok () s' ∧ v.bytesRw = ret ∧ v.buf = buf' := by
  subst hp hpos
  simp only [doReadWriteRegular, run_bind, run_get, run_check, run_intAdd,
    run_pure, EStateM.Result.ok.injEq, Prod.mk.injEq]
  constructor
  · rintro ⟨_, _, ⟨rfl, rfl⟩, _, _, ⟨htype, rfl⟩, _, _, ⟨hint, rfl, rfl⟩, v, t,
      hloop, _, _, hgrow, ⟨hret, hbuf⟩, rfl⟩
    exact ⟨htype, hint, v, t, hloop, hgrow, hret, hbuf⟩
  · rintro ⟨htype, hint, v, t, hloop, hgrow, hret, hbuf⟩
    exact ⟨s, s, ⟨rfl, rfl⟩, (), s, ⟨htype, rfl⟩, _, s, ⟨hint, rfl, rfl⟩, v, t,
      hloop, (), s', hgrow, ⟨hret, hbuf⟩, rfl⟩

/-- **A TRANSFER INSIDE THE LIMIT** moves all its bytes. -/
theorem regular_run (io : Io) {p : Inode} {pos len : Nat} (buf : Nat → Byte)
    (hp : s.inodeTable i = p)
    (htype : p.fileType = TYPE_REGULAR ∨ p.fileType = TYPE_DIRECTORY)
    (hpos : (s.fileDescTable d).pos = pos)
    (hend : pos + len ≤ (limit io p).toNat) (haddr : Addressable p pos len) :
    ∃ t, Moved s t p.dev d (diskAfter io (s.disk p.dev)
        (512 * p.sectStart.toNat + pos) len buf) len ∧
      ∀ s', growSize i d t = .ok () s' →
        doReadWriteRegular io i d len buf s = .ok (len, bufAfter io buf 0 len
          (drop (s.disk p.dev) (512 * p.sectStart.toNat + pos))) s' := by
  obtain ⟨hint, hchunk⟩ := haddr
  have hint' : pos + len < 2147483648 := by omega
  have hE : posEnd io p ((pos : Int) + len) = (pos + len : Nat) := by
    rw [← Int.natCast_add, posEnd_eq hint', Nat.min_eq_left hend]
  have hle : pos / 512 ≤ (pos + len) / 512 := by omega
  have haddr' : p.sectStart.toNat + pos / 512 +
      ((pos + len) / 512 - pos / 512) / 2048 * 2048 < 4194304 := by
    rw [lastChunk] at hchunk
    omega
  obtain ⟨c, hc⟩ : ∃ c, c = min ((pos + len) / 512 - pos / 512 + 1) 2048 :=
    ⟨_, rfl⟩
  obtain ⟨N, hc0, hN⟩ := chunks hle hc
  have hcover : (pos + len) / 512 - pos / 512 < N * c := hN.2.2.1
  have hbytes : N * (c * 512) = N * c * 512 := (Nat.mul_assoc N c 512).symm
  obtain ⟨o', t, hloop, hmoved⟩ := rwLoop_regular io d s buf hle (by omega) hc
    hN haddr' (show len = min len (N * (c * 512) - pos % 512) by omega)
  rw [← hE] at hloop
  exact ⟨t, hmoved, fun s' hgrow => (run_regular hp hpos).mpr
    ⟨htype, ⟨by omega, hint⟩, _, t, hloop, hgrow, rfl, rfl⟩⟩

/-- **A TRANSFER THAT ENDS.**  It moved as much as asked only in chunks that
    have a place on the disk, and it never stops at the limit. -/
theorem regular_cases (io : Io) {p : Inode} {pos len : Nat} {ret : Int}
    {buf buf' : Nat → Byte} (hp : s.inodeTable i = p)
    (hpos : (s.fileDescTable d).pos = pos)
    (hsects : p.sectStart.toNat + (limit io p).toNat / 512 < 4294967296)
    (hrun : doReadWriteRegular io i d len buf s = .ok (ret, buf') s') :
    pos + len < 2147483648 ∧ ∃ t, ∃ n : Nat, growSize i d t = .ok () s' ∧
      ret = n ∧ n ≤ len ∧ (t.fileDescTable d).pos = (pos + n : Nat) ∧
      t.inodeTable = s.inodeTable ∧ t.superBlockTable = s.superBlockTable ∧
      (pos + len ≤ (limit io p).toNat → n = len → Addressable p pos len) ∧
      ((limit io p).toNat < pos + len → pos + n ≠ (limit io p).toNat) := by
  obtain ⟨-, ⟨-, hint⟩, v, t, hloop, hgrow, hret, -⟩ :=
    (run_regular hp hpos).mp hrun
  have hint' : pos + len < 2147483648 := by omega
  obtain ⟨E, hE⟩ : ∃ E, E = min (pos + len) (limit io p).toNat := ⟨_, rfl⟩
  have hend : posEnd io p ((pos : Int) + len) = (E : Nat) := by
    rw [← Int.natCast_add, posEnd_eq hint', hE]
  rw [hend] at hloop
  refine ⟨hint', t, ?_⟩
  by_cases hexec : rwSect p pos ≤ rwSect p E
  · obtain ⟨haddr, n, hpass⟩ := rwLoop_cases (by omega) hloop
    have hn : n ≤ len := by
      have := hpass.bound
      dsimp only at this
      omega
    have hmoved : ret = n := by
      have := hpass.moved
      dsimp only at this
      omega
    have hposn : (t.fileDescTable d).pos = (pos + n : Nat) := by
      rw [hpass.pos, hpos, Int.natCast_add]
    refine ⟨n, hgrow, hmoved, hn, hposn, hpass.inodes, hpass.supers, ?_⟩
    -- from here on the sectors of the range have numbers that are `int`s
    have hfirst := (haddr 0 (by omega)).1
    have hsmall : pos ≤ E → p.sectStart.toNat + E / 512 < 2147483648 := by
      intro hposE
      have hpE : pos / 512 ≤ E / 512 := Nat.div_le_div_right hposE
      have hElim : E / 512 ≤ (limit io p).toNat / 512 :=
        Nat.div_le_div_right (by omega)
      rw [rwSect_eq (by omega)] at hfirst
      rw [rwSect_eq (by omega), rwSect_eq (by omega)] at hexec
      by_contra hbig
      rw [if_neg hbig] at hexec
      split at hexec <;> split at hfirst <;> omega
    have hlast : pos ≤ E → p.sectStart.toNat + pos / 512 +
        (E / 512 - pos / 512) / 2048 * 2048 < 4194304 := by
      intro hposE
      have hs := hsmall hposE
      have hpE : pos / 512 ≤ E / 512 := Nat.div_le_div_right hposE
      obtain ⟨c, hc⟩ : ∃ c, c = min (E / 512 - pos / 512 + 1) 2048 := ⟨_, rfl⟩
      obtain ⟨N, hc0, hN0, -, -, hlastN⟩ := chunks hpE hc
      have hmin : rwSect p pos = (p.sectStart.toNat + pos / 512 : Nat) := by
        rw [rwSect_eq (by omega), if_pos (by omega)]
      have hmax : rwSect p E = (p.sectStart.toNat + E / 512 : Nat) := by
        rw [rwSect_eq (by omega), if_pos hs]
      have hle : (N - 1) * c ≤ E / 512 - pos / 512 := by
        rw [hlastN]
        exact Nat.div_mul_le_self _ _
      have hcint : min (rwSect p E - rwSect p pos + 1) 2048 = (c : Int) := by
        rw [hmin, hmax]
        omega
      have hchunkN := haddr (N - 1)
      rw [hcint, ← Int.natCast_mul, hmin, hmax] at hchunkN
      have := (hchunkN (by omega)).2
      omega
    refine ⟨fun hin hall => ?_, fun hout hstop => ?_⟩
    · have hEeq : E = pos + len := by omega
      have h := hlast (by omega)
      rw [hEeq] at h
      refine ⟨hint, ?_⟩
      rw [lastChunk]
      omega
    · have hEeq : E = (limit io p).toNat := by omega
      have hposE : pos ≤ E := by omega
      have hpE : pos / 512 ≤ E / 512 := Nat.div_le_div_right hposE
      obtain ⟨c, hc⟩ : ∃ c, c = min (E / 512 - pos / 512 + 1) 2048 := ⟨_, rfl⟩
      obtain ⟨N, hc0, hN⟩ := chunks hpE hc
      have hcover : E / 512 - pos / 512 < N * c := hN.2.2.1
      have hbytes : N * (c * 512) = N * c * 512 :=
        (Nat.mul_assoc N c 512).symm
      obtain ⟨o', t', hloop', -⟩ := rwLoop_regular io d s buf hpE
        (hsmall hposE) hc hN (hlast hposE)
        (show min len (N * (c * 512) - pos % 512) = _ from rfl)
      rw [hloop] at hloop'
      cases hloop'
      have := hpass.moved
      dsimp only at this
      omega
  · -- the loop does not run
    have hfuel : (rwSect p E - rwSect p pos + 1).toNat = 0 := by omega
    rw [hfuel, rwLoop, if_neg hexec] at hloop
    cases hloop
    refine ⟨0, hgrow, hret.symm, by omega, by rw [hpos, Nat.add_zero], rfl, rfl,
      fun hin hall => ?_, fun hout hstop => ?_⟩
    · have hEeq : E = pos := by omega
      exact absurd (Int.le_of_eq (by rw [hEeq])) hexec
    · have hEeq : E = pos := by omega
      exact absurd (Int.le_of_eq (by rw [hEeq])) hexec

end Regular

end KosReadWrite
