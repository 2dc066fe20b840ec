import Kos.StoreRunsProofs

/-! # What was written is read

    The processes share the files, and a file outlives them and the machine's
    starts.

    * A byte of a file stays in the store that the file system stands for while
      steps spare it (`holds_spared`);
    * so a read finds what was written there, whatever process asks, and through
      whatever descriptor (`written_read_back`). -/

namespace KosWrittenBytes

open FlatMemory (Byte)
open Overlay
open RefCount
open TraceRefinement
open KosFs
open KosMkfs
open KosFileNames
open KosReadWrite
open KosSectorMap (mapSize)
open KosOpenFile
open KosRequests
open KosDescriptor (Behind slotOf)
open KosTables
open KosRequestCounts
open KosReferenceCounts (succeeded)
open KosDiskImage
open KosDiskSteps
open KosDiskRequests
open KosNewImage
open KosFileMaps
open KosMapRuns (Inv)
open KosFileStore
open KosOpenFiles
open KosStoreContents
open KosStoreSteps
open KosStoreRuns

/-- The file that a process has open under FD, and the position in it. -/
def OnFile (s : Fs) (p : Pid) (fd : Int) (n pos : Nat) : Prop :=
  ∃ d i, Behind s p.val fd d i ∧ (s.inodeTable i).nr = n ∧
    (s.fileDescTable d).pos = pos

/-- What is done writes to byte `x` of the file. -/
def Overwrites (s : Fs) (n x : Nat) : Label → Prop
  | .request p (.readWrite .write fd len _ _) _ =>
      ∃ d i, Behind s p.val fd d i ∧ (s.inodeTable i).nr = n ∧
        (s.fileDescTable d).mode &&& O_RDWR ≠ 0 ∧
        (s.fileDescTable d).pos ≤ x ∧ (x : Int) < (s.fileDescTable d).pos + len
  | _ => False

/-- A step that leaves the file there, and its byte `x`. -/
def Spares (sb : SuperBlock) (n x : Nat) (s t : Fs) : Prop :=
  ∃ l, step sb s l t ∧ ¬ Overwrites s n x l ∧ (imageIn sb t).inodeBit n = true

/-! ## Transfers that succeed -/

section Transfers

variable {sb : SuperBlock} {live : Finset Nat} {s : Fs} {p : Pid} {fd : Int}
  {d : Fin NR_FILE_DESC} {i : Fin NR_INODE} {n pos len : Nat}

/-- **A TRANSFER** inside the file or its sectors succeeds. -/
theorem transfer_ok (io : Io) (answer : Int × (Nat → Byte)) (buf : Nat → Byte)
    (hfits : Fits sb) (h : Inv sb live s) (hbehind : Behind s p.val fd d i)
    (ho : At sb live s d i n pos) (hmode : (s.fileDescTable d).mode &&& O_RDWR ≠ 0)
    (hend : pos + len ≤ (limit io (s.inodeTable i)).toNat)
    (haddr : Addressable (s.inodeTable i) pos len) :
    ∃ r t, doReadWrite io p.val fd len answer buf s = .ok ((len : Int), r) t := by
  obtain ⟨hreg, hstart⟩ := openFile_image ho
  have hplace := behind_dir hfits h.files.maps ho.live hreg
  rw [hstart] at hplace
  have hrange := h.files.maps.range n ho.live
  have hint := haddr.1
  obtain ⟨w, hmoved, hdone⟩ := regular_run io buf rfl (Or.inl ho.regular) ho.pos hend
    haddr
  have himage : imageIn sb w = imageIn sb s := by
    refine image_behind hfits.made fun x hx => ?_
    rw [hmoved.disk, ho.dev, Function.update_self]
    cases io with
    | read => rfl
    | write => exact put_of_out (by omega)
  obtain ⟨t, hgrow, -, -⟩ := growSize_done (n := n) hfits.made
    ((superOf_congr hmoved.supers).trans h.super) (congrFun hmoved.inodes i) ho.dev
    ho.nr hrange.1 (by omega) (by rw [himage]; exact ho.stored) (by
      rw [hmoved.descs, Function.update_self, ho.pos, Int.natCast_add])
    (by omega)
  obtain ⟨hslotOf, hi⟩ := hbehind
  obtain ⟨slot, rfl, hslot⟩ := slotOf_some hslotOf
  have hslot' : s.fileDesc p.val slot = some d := hslot
  have hregular : doReadWrite io p.val slot.val len answer buf s =
      doReadWriteRegular io i d len buf s := by
    rw [doReadWrite, run_bind_of (KosFileBytes.run_fdSlot slot), run_get_bind, hslot']
    dsimp only
    rw [if_neg hmode, hi]
    dsimp only
    rw [ho.regular, if_neg (by decide)]
  exact ⟨_, t, hregular.trans (hdone t hgrow)⟩

/-- A move inside the file succeeds. -/
theorem lseek_ok {off : Int} (hbehind : Behind s p.val fd d i)
    (h0 : 0 ≤ off) (hle : off ≤ (s.inodeTable i).fileSize.toInt) :
    doLseek p.val fd off SEEK_SET s =
      .ok off (s.updDesc d fun f => { f with pos := off }) := by
  obtain ⟨hslotOf, hi⟩ := hbehind
  obtain ⟨slot, rfl, hslot⟩ := slotOf_some hslotOf
  have hslot' : s.fileDesc p.val slot = some d := hslot
  have hseek : ∀ pos size : Int, seekPos pos size off SEEK_SET s = .ok (some off) s :=
    fun _ _ => rfl
  rw [doLseek, run_bind_of (KosFileBytes.run_fdSlot slot), run_get_bind, hslot']
  dsimp only
  rw [hi]
  dsimp only
  rw [run_bind_of (hseek _ _)]
  dsimp only
  rw [if_neg (by omega)]
  rfl

end Transfers

/-! ## Bytes that stay -/

section Bytes

variable {sb : SuperBlock} {s t : Fs} {a : Store} {p : Pid} {fd : Int}
  {n pos x : Nat} {v : Byte} {l : Label}

/-- A slot has one open file. -/
theorem has_unique {slot : FileSlot} {d d' : Fin NR_FILE_DESC} {o o' : Opened}
    (h : a.Has slot d o) (h' : a.Has slot d' o') : o = o' := by
  obtain ⟨hslot, ho⟩ := h
  obtain ⟨hslot', ho'⟩ := h'
  rw [hslot] at hslot'
  cases hslot'
  rw [ho] at ho'
  exact Option.some.inj ho'

theorem behind_unique {pid : Int} {d d' : Fin NR_FILE_DESC} {i i' : Fin NR_INODE}
    (h : Behind s pid fd d i) (h' : Behind s pid fd d' i') : d' = d ∧ i' = i := by
  obtain ⟨hslot, hi⟩ := h
  obtain ⟨hslot', hi'⟩ := h'
  rw [hslot] at hslot'
  cases hslot'
  rw [hi] at hi'
  exact ⟨rfl, (Option.some.inj hi').symm⟩

theorem has_onFile (hs : StandsFor sb s a) (h : OnFile s p fd n pos) :
    ∃ slot d mode, fd = ((slot : Fin NR_FILES).val : Nat) ∧
      a.Has (p, slot) d ⟨n, pos, mode⟩ := by
  obtain ⟨d, i, ⟨hslotOf, hi⟩, hnr, hpos⟩ := h
  obtain ⟨slot, hfd, hslot⟩ := slotOf_some hslotOf
  refine ⟨slot, d, (s.fileDescTable d).mode, hfd, ?_, ?_⟩
  · rw [hs.slots]
    exact hslot
  · rw [hs.opened, openedAt_some hi, hnr, hpos, Int.toNat_natCast,
      Int.toNat_natCast]

/-- What overwrites a byte of the store does it in the file system. -/
theorem overwrites_store (hs : StandsFor sb s a) (h : a.Overwrites n x l) :
    Overwrites s n x l := by
  match l, h with
  | .request p (.readWrite .write fd len _ _) _, h =>
      obtain ⟨slot, d, o, rfl, ⟨hslot, ho⟩, hn, hmode, hle, hlt⟩ := h
      rw [hs.slots] at hslot
      rw [hs.opened, openedAt] at ho
      obtain ⟨i, hi, rfl⟩ := Option.map_eq_some_iff.mp ho
      have hused : 0 < (s.inodeTable i).cnt :=
        exact_used hs.inv.counted.exact (atRoot_nonneg s) hi
      obtain ⟨-, m, -, hnr, -⟩ := hs.inv.files.loaded.entry i (by omega)
      have hpos := hs.inv.files.loaded.pos d (by
        rw [hi]
        exact Option.some_ne_none i)
      dsimp only at hn hle hlt hmode
      refine ⟨d, i, ⟨slotOf_slot.trans hslot, hi⟩, by omega, hmode, by omega, by omega⟩

/-- The store that the state stands for has the byte. -/
def Holds (sb : SuperBlock) (n x : Nat) (v : Byte) (s : Fs) : Prop :=
  ∃ a, StandsFor sb s a ∧ a.Small ∧ n ∈ a.live ∧ a.bytes n x = v

/-- The files of a store have their numbers in use. -/
theorem live_iff (hs : StandsFor sb s a) (hn : n ≠ 0) :
    n ∈ a.live ↔ (imageIn sb s).inodeBit n = true :=
  ⟨fun h => bit_of_live hs.inv.files.maps h,
    fun h => live_of_bit hs.inv.files.maps hn h⟩

theorem holds_step (hfits : Fits sb) (hmagic : sb.magic = MAGIC_V1)
    (h : Holds sb n x v s) (hstep : Spares sb n x s t) : Holds sb n x v t := by
  obtain ⟨a, hs, hsmall, hn, hv⟩ := h
  obtain ⟨l, hstep, hno, hbit⟩ := hstep
  obtain ⟨b, hserves, ht⟩ := step_served hfits hmagic hs hsmall hstep
  have hn0 : n ≠ 0 := by
    have hrange := hs.inv.files.maps.range n hn
    omega
  refine ⟨b, ht, small_step hserves hsmall, (live_iff ht hn0).mpr hbit, ?_⟩
  rw [bytes_step hserves hn (mt (overwrites_store hs) hno)]
  exact hv

/-- **A BYTE STAYS** while steps spare it. -/
theorem holds_spared (hfits : Fits sb) (hmagic : sb.magic = MAGIC_V1)
    (h : Holds sb n x v s) (hrun : Relation.ReflTransGen (Spares sb n x) s t) :
    Holds sb n x v t := by
  induction hrun with
  | refl => exact h
  | tail _ hstep ih => exact holds_step hfits hmagic ih hstep

/-- A write puts its bytes into the file. -/
theorem holds_written (hfits : Fits sb) (hmagic : sb.magic = MAGIC_V1)
    {len : Int} {answer : Int × (Nat → Byte)} {buf : Nat → Byte} {reply : Reply}
    (hs : StandsFor sb s a) (hsmall : a.Small) (hfile : OnFile s p fd n pos)
    (hx : pos ≤ x ∧ (x : Int) < pos + len)
    (hstep : step sb s (.request p (.readWrite .write fd len answer buf) reply) t)
    (hret : reply.ret ≠ 0) : Holds sb n x (buf (x - pos)) t := by
  obtain ⟨b, hserves, ht⟩ := step_served hfits hmagic hs hsmall hstep
  obtain ⟨slot, d, mode, hfd, hhas⟩ := has_onFile hs hfile
  obtain ⟨slot', d', o, hfd', hhas', hcase⟩ := served_write hserves
  have hslot : slot' = slot := Fin.ext (by omega)
  rw [hslot] at hhas'
  obtain rfl := has_unique hhas hhas'
  obtain ⟨hlive, hbytes⟩ := hcase.resolve_left fun h => hret h.2
  have hn : n ∈ a.live := by
    obtain ⟨_, i, hbehind, hnr, -⟩ := hfile
    have hused : 0 < (s.inodeTable i).cnt :=
      exact_used hs.inv.counted.exact (atRoot_nonneg s) hbehind.2
    obtain ⟨-, m, hm, hnr', -⟩ := hs.inv.files.loaded.entry i (by omega)
    rw [hnr] at hnr'
    exact Int.ofNat_inj.mp hnr' ▸ hm
  refine ⟨b, ht, small_step hserves hsmall, hlive ▸ hn, ?_⟩
  rw [hbytes, write_bytes, if_pos rfl]
  have hin : pos ≤ x ∧ x < pos + len.toNat := by omega
  exact put_of_in hin

/-- **WHAT WAS WRITTEN IS READ.** A process writes to a file; then other requests
    are served, of this process and of others, processes fork and exit, and the
    machine starts again, but nothing is written over the byte and the file is
    not removed.  A read of the byte finds what was written. -/
theorem written_read_back {sectCnt : BitVec 32} {ls : List Label} {s t u w : Fs}
    {p q : Pid} {fd fd' len len' : Int} {answer answer' : Int × (Nat → Byte)}
    {buf buf' : Nat → Byte} {reply reply' : Reply} {n pos pos' x : Nat}
    (hcond : 2048 ≤ sectCnt.toNat ∧ sectCnt.toNat < 124768256)
    (hreach : Run (fileSystem sectCnt) ls s)
    (hfile : OnFile s p fd n pos) (hx : pos ≤ x ∧ (x : Int) < pos + len)
    (hwrite : (fileSystem sectCnt).step s
      (.request p (.readWrite .write fd len answer buf) reply) t)
    (hret : reply.ret ≠ 0)
    (hspared : Relation.ReflTransGen
      (Spares (superBlock sectCnt ROOT_DEV_NR) n x) t u)
    (hfile' : OnFile u q fd' n pos') (hx' : pos' ≤ x ∧ (x : Int) < pos' + len')
    (hread : (fileSystem sectCnt).step u
      (.request q (.readWrite .read fd' len' answer' buf') reply') w)
    (hret' : reply'.ret ≠ 0) : reply'.bytes (x - pos') = buf (x - pos) := by
  obtain ⟨a, -, hfits, hs, hsmall⟩ := run_simulated (store_simulates hcond) hreach
  obtain ⟨b, hu, hsmall', hn, hv⟩ := holds_spared hfits rfl
    (holds_written hfits rfl hs hsmall hfile hx hwrite hret) hspared
  obtain ⟨c, hserves, -⟩ : ∃ c, Serves b (.request q (.readWrite .read fd' len'
      answer' buf') reply') c ∧ StandsFor (superBlock sectCnt ROOT_DEV_NR) w c :=
    step_served hfits rfl hu hsmall' hread
  obtain ⟨slot, d, mode, hfd, hhas⟩ := has_onFile hu hfile'
  obtain ⟨slot', d', o, hfd', hhas', hcase⟩ := served_read hserves
  have hslot : slot' = slot := Fin.ext (by omega)
  rw [hslot] at hhas'
  obtain rfl := has_unique hhas hhas'
  have hin : 0 ≤ x - pos' ∧ x - pos' < 0 + len'.toNat := by omega
  have hat : pos' + (x - pos' - 0) = x := by omega
  rw [hcase.resolve_left fun h => hret' h.2, put_of_in hin, ← hv, drop]
  exact congrArg (b.bytes n) hat

/-- A transfer that FS makes. -/
theorem transfer_step (io : Io) (len : Nat) (answer : Int × (Nat → Byte))
    (buf : Nat → Byte) {d : Fin NR_FILE_DESC} {i : Fin NR_INODE} (hfits : Fits sb)
    (hs : StandsFor sb s a) (hbehind : Behind s p.val fd d i)
    (hat : At sb a.live s d i n pos)
    (hmode : (s.fileDescTable d).mode &&& O_RDWR ≠ 0)
    (hend : pos + len ≤ (limit io (s.inodeTable i)).toNat)
    (haddr : Addressable (s.inodeTable i) pos len) :
    ∃ reply t, step sb s (.request p (.readWrite io fd len answer buf) reply) t ∧
      reply.ret = len ∧ doReadWriteRegular io i d len buf s =
        .ok (reply.ret, reply.bytes) t := by
  obtain ⟨r, t, hrun⟩ := transfer_ok io answer buf hfits hs.inv hbehind hat
    hmode hend haddr
  obtain ⟨d', hslot, hcase⟩ := readWrite_done hrun
  rw [hbehind.1] at hslot
  cases hslot
  obtain ⟨-, i', hi, hdone⟩ := hcase.resolve_left fun h => hmode h.1
  rw [hbehind.2] at hi
  cases hi
  rw [hat.regular] at hdone
  refine ⟨{ ret := len, bytes := r }, t, ⟨fun d' i' hb => ?_, trivial,
    run_bind.mpr ⟨_, _, hrun, rfl⟩⟩, rfl, hdone.resolve_left (by decide)⟩
  obtain ⟨rfl, rfl⟩ := behind_unique hbehind hb
  refine ⟨hat.regular, fun _ => ⟨Int.natCast_nonneg len, ?_⟩⟩
  rw [hat.pos]
  omega

/-- Three characters are written to a new file and read again. -/
theorem written_read_back_moved : ∃ (fd : Fin NR_FILES) (s t u w : Fs)
    (reply reply' : Reply),
    Run (fileSystem 40960) [.request 5 (.open [0x61] (O_RDWR ||| O_CREAT))
      { ret := fd.val }] s ∧
    (fileSystem 40960).step s (.request 5 (.readWrite .write fd.val 3
      (0, fun _ => 0) fun k => BitVec.ofNat 8 (0x61 + k)) reply) t ∧
    (fileSystem 40960).step t (.request 5 (.lseek fd.val 0 SEEK_SET)
      { ret := 0 }) u ∧
    (fileSystem 40960).step u (.request 5 (.readWrite .read fd.val 3
      (0, fun _ => 0) fun _ => 0) reply') w ∧ reply'.bytes 1 = 0x62 := by
  have hcond : 2048 ≤ (40960 : BitVec 32).toNat ∧
      (40960 : BitVec 32).toNat < 124768256 := by decide
  obtain ⟨s₀, fd, d, i, v, hboot, hopen, nr, start, hnew⟩ := first_file
  obtain ⟨s, hs⟩ : ∃ s, s = connect v 5 fd d i (O_RDWR ||| O_CREAT) := ⟨_, rfl⟩
  rw [← hs] at hopen
  have hreach : Run (fileSystem 40960) [.request 5 (.open [0x61]
      (O_RDWR ||| O_CREAT)) { ret := fd.val }] s := .next (.start hboot) hopen
  obtain ⟨a, -, hfits, hstands, hsmall⟩ :=
    run_simulated (store_simulates hcond) hreach
  have hinode : s.inodeTable i = newInode ROOT_DEV_NR nr start := by
    rw [hs]
    exact hnew
  have hdesc : s.fileDescTable d =
      { mode := O_RDWR ||| O_CREAT, pos := 0, cnt := 1, inode := some i } := by
    rw [hs]
    exact Function.update_self ..
  have hbehind : Behind s (5 : Pid).val fd.val d i := by
    refine ⟨slotOf_slot.trans ?_, by rw [hdesc]⟩
    have hpid : ((5 : Pid).val : Int) = 5 := by decide
    show s.fileDesc ((5 : Pid).val : Int) fd = some d
    rw [hpid, hs]
    show Function.update v.fileDesc 5 (Function.update (v.fileDesc 5) fd (some d)) 5
      fd = some d
    rw [Function.update_self, Function.update_self]
  have hregular : (s.inodeTable i).fileType = TYPE_REGULAR := by
    rw [hinode]
    rfl
  have hmode : (O_RDWR ||| O_CREAT : BitVec 32) &&& O_RDWR ≠ 0 := by decide
  obtain ⟨n, pos, hat⟩ := openFile_of_behind hstands.inv hbehind hregular
  have hpos := hat.pos
  rw [hdesc] at hpos
  obtain rfl : 0 = pos := Int.ofNat_inj.mp hpos
  have hplace : (s.inodeTable i).sectStart.toNat < 47000 := by
    obtain ⟨htype, hstart⟩ := openFile_image hat
    have hdata := (regular_inData (hstands.inv.files.maps.kind n hat.live) htype).2.ends
    have hsize : (superBlock 40960 ROOT_DEV_NR).nr1stDataSect.toNat = 270 ∧
        mapSize (superBlock 40960 ROOT_DEV_NR) = 45056 := by decide
    rw [← hstart]
    omega
  have haddr : ∀ p : Inode, p.sectStart.toNat < 47000 →
      Addressable p (0 : Nat) (3 : Nat) := by
    intro p hp
    refine ⟨by omega, ?_⟩
    rw [lastChunk]
    omega
  -- the write
  have hlimit : (limit .write (s.inodeTable i)).toNat = 1048576 := by
    have hsects : (BitVec.ofNat 32 NR_FILE_SECTS * 512).toNat = 1048576 := by decide
    rw [limit, hinode]
    exact hsects
  obtain ⟨reply, t, hwrite, hret, hdone⟩ := transfer_step .write 3
    (0, fun _ => 0) (fun k => BitVec.ofNat 8 (0x61 + k)) hfits
    hstands hbehind hat (by rw [hdesc]; exact hmode) (by rw [hlimit]; omega)
    (haddr _ hplace)
  obtain ⟨-, -, himage, htables, -⟩ := write_done hfits hstands.inv hat
    (by rw [hlimit]; omega) (haddr _ hplace) hdone
  have hadvanced : (advanced d 3 s).fileDescTable d =
      { mode := O_RDWR ||| O_CREAT, pos := 3, cnt := 1, inode := some i } := by
    refine (Function.update_self ..).trans ?_
    rw [hdesc]
    rfl
  have hext : extended i d (advanced d 3 s) = (advanced d 3 s).updInode i fun p =>
      { p with fileSize := 3 } := by
    have hsize : (0 : BitVec 32) < BitVec.ofInt 32 3 := by decide
    have hinode' : (advanced d 3 s).inodeTable i = newInode ROOT_DEV_NR nr start :=
      hinode
    rw [extended, hadvanced, hinode']
    exact if_pos hsize
  rw [hext] at htables
  have hinodet : t.inodeTable i = { newInode ROOT_DEV_NR nr start with
      fileSize := 3 } := by
    rw [htables.inodes, updInode_self]
    exact congrArg (fun p : Inode => { p with fileSize := 3 }) hinode
  have hdesct : t.fileDescTable d =
      { mode := O_RDWR ||| O_CREAT, pos := 3, cnt := 1, inode := some i } := by
    rw [htables.descs]
    exact hadvanced
  have hslott : slotOf t (5 : Pid).val fd.val = slotOf s (5 : Pid).val fd.val := by
    rw [slotOf, slotOf, htables.slots]
    rfl
  have hbehindt : Behind t (5 : Pid).val fd.val d i :=
    ⟨hslott.trans hbehind.1, by rw [hdesct]⟩
  -- back to the start
  obtain ⟨u, hu⟩ : ∃ u, u = t.updDesc d fun f => { f with pos := 0 } := ⟨_, rfl⟩
  have hlseek : doLseek (5 : Pid).val fd.val 0 SEEK_SET t = .ok 0 u := by
    rw [hu]
    exact lseek_ok hbehindt (Int.le_refl 0) (by
      rw [hinodet]
      show (0 : Int) ≤ (3 : BitVec 32).toInt
      decide)
  have hmove : step (superBlock 40960 ROOT_DEV_NR) t
      (.request 5 (.lseek fd.val 0 SEEK_SET) { ret := 0 }) u := by
    refine ⟨fun d' i' hb => ?_, show (0 : Int) ≠ -1 by decide,
      run_bind.mpr ⟨_, _, hlseek, rfl⟩⟩
    obtain ⟨rfl, rfl⟩ := behind_unique hbehindt hb
    rw [hinodet]
    rfl
  have hinodeu : u.inodeTable i = { newInode ROOT_DEV_NR nr start with
      fileSize := 3 } := by
    rw [hu]
    exact hinodet
  have hdescu : u.fileDescTable d =
      { mode := O_RDWR ||| O_CREAT, pos := 0, cnt := 1, inode := some i } := by
    rw [hu]
    refine (Function.update_self ..).trans ?_
    rw [hdesct]
  have hbehindu : Behind u (5 : Pid).val fd.val d i := by
    refine ⟨?_, by rw [hdescu]⟩
    rw [hu]
    exact hbehindt.1
  -- the read
  obtain ⟨b, -, -, hstandsu, -⟩ := run_simulated (store_simulates hcond)
    (run_step (run_step hreach hwrite) hmove)
  obtain ⟨m, pos', hatu⟩ := openFile_of_behind hstandsu.inv hbehindu
    (by rw [hinodeu]; rfl)
  have hposu := hatu.pos
  rw [hdescu] at hposu
  obtain rfl : 0 = pos' := Int.ofNat_inj.mp hposu
  have hplaceu : (u.inodeTable i).sectStart = (s.inodeTable i).sectStart := by
    rw [hinodeu, hinode]
  have hlimitu : (limit .read (u.inodeTable i)).toNat = 3 := by
    rw [limit, hinodeu]
    rfl
  obtain ⟨reply', w, hread, hret', -⟩ := transfer_step .read 3
    (0, fun _ => 0) (fun _ => 0) hfits hstandsu hbehindu hatu
    (by rw [hdescu]; exact hmode) (by rw [hlimitu]) (haddr _ (by rw [hplaceu]; exact hplace))
  have hspares : Spares (superBlock 40960 ROOT_DEV_NR) n 1 t u := by
    refine ⟨_, hmove, fun h => h, ?_⟩
    have hdisk : imageIn (superBlock 40960 ROOT_DEV_NR) u =
        imageIn (superBlock 40960 ROOT_DEV_NR) t := by
      rw [hu]
      rfl
    have hbit := bit_of_live hstands.inv.files.maps hat.live
    rw [hdisk, himage]
    exact hbit
  refine ⟨fd, s, t, u, w, reply, reply', hreach, hwrite, hmove, hread, ?_⟩
  have hnru : (u.inodeTable i).nr = n := by
    rw [hinodeu, ← hat.nr, hinode]
  exact written_read_back hcond hreach ⟨d, i, hbehind, hat.nr, hat.pos⟩ (by decide)
    hwrite (by rw [hret]; decide) (.single hspares) ⟨d, i, hbehindu, hnru, hatu.pos⟩
    (by decide) hread (by rw [hret']; decide)

end Bytes

end KosWrittenBytes
