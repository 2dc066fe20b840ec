import Kos.InitFsProofs
import Kos.RequestsProofs
import Kos.RootDirectoryProofs

/-! # Requests that are refused

    Handlers answer -1 in many places.  `do_open`, `do_stat` and `do_lseek` do
    so before they change anything.  `do_unlink` looks at the type and at the
    count of an inode after `get_file_inode` has counted a use of it, and
    returns without `put_inode`.

    * `Absent` is what the search for a path sees, in the bytes of the
      directory (`getFileInodeNr_absent`);
    * `refused_iff` is the exact condition, for the requests of every run. -/

namespace KosRefusals

open FlatMemory (Byte)
open Overlay
open KosFs
open KosFileNames
open KosReadWrite (O_RDWR doLseek fdSlot seekPos)
open KosOpenFile
open KosUnlink
open KosRequests
open KosInitFs (initFs demoDisk ttyName)
open KosMkfs (demoFs demoRoot)
open KosRootDirectory

/-- `fsbuf` apart, the file system is as it was. -/
structure Same (s t : Fs) : Prop where
  disk : t.disk = s.disk
  inodes : t.inodeTable = s.inodeTable
  descs : t.fileDescTable = s.fileDescTable
  slots : t.fileDesc = s.fileDesc

theorem same_fsbuf (s : Fs) (g : Nat → Byte) : Same s { s with fsbuf := g } :=
  ⟨rfl, rfl, rfl, rfl⟩

/-! ## The search for a path -/

/-- The entries that the search looks at. -/
def searched (p : Inode) : Nat :=
  min (p.fileSize.toNat / 16 + 1) (32 * ((p.fileSize + 511) / 512).toNat)

/-- The path has no name, or the first entry of the directory with the bytes of
    its name has no number, or none has these bytes. -/
def Absent (s : Fs) (path : List Byte) : Prop :=
  ∀ name, getFileName path = some name →
    if name.getD 0 0 = 0 then
      (s.inodeTable s.rootInode).nr = INVALID_INODE
    else
      FirstIs (sameAt name (dirBytes s (s.inodeTable s.rootInode)))
        (numAt (dirBytes s (s.inodeTable s.rootInode)))
        (searched (s.inodeTable s.rootInode)) 0 INVALID_INODE

section Search

variable {s t : Fs} {path : List Byte} {nr : Int}

theorem quotient_toInt (v c : BitVec 32) (hc : 2 ≤ c.toNat) :
    (v / c).toInt = (v / c).toNat := by
  have hlt : v.toNat / c.toNat ≤ v.toNat / 2 :=
    Nat.div_le_div_left hc (by omega)
  have hv := v.isLt
  refine BitVec.toInt_eq_toNat_of_lt ?_
  rw [BitVec.toNat_udiv]
  omega

/-- The loops that end have looked at these entries. -/
theorem searchSects_ok {name : List Byte} {dev : Int} {start : BitVec 32}
    {E total : Nat}
    (h : searchSects name dev start.toInt E total 0 0 s = .ok nr t) :
    nr = firstNr (sameAt name (drop (s.disk dev) (512 * start.toNat)))
      (numAt (drop (s.disk dev) (512 * start.toNat)))
      (min (E + 1) (32 * total)) 0 := by
  cases total with
  | zero =>
      rw [Nat.mul_zero, Nat.min_zero]
      cases h
      rfl
  | succ total =>
      have hstart : 0 ≤ start.toInt := by
        by_contra hneg
        rw [searchSects, run_bind_error (rdSects_fault fun haddr => by
          have := haddr.1
          omega)] at h
        cases h
      have hnat : start.toInt = start.toNat := by
        rw [BitVec.toInt_eq_toNat_cond] at hstart ⊢
        split at hstart
        · rw [if_pos (by assumption)]
        · have := start.isLt
          omega
      rw [hnat] at h
      rcases searchSects_cases name dev start.toNat E (total + 1)
          (Nat.zero_add _) (Nat.zero_le _) with ⟨g, hg⟩ | ⟨-, s', hs'⟩
      · exact (EStateM.Result.ok.inj (h.symm.trans hg)).1
      · cases h.symm.trans hs'

/-- The number that the search for the path comes to. -/
def numberOf (s : Fs) (path : List Byte) : Int :=
  let root := s.inodeTable s.rootInode
  match getFileName path with
  | none => INVALID_INODE
  | some name =>
      if name.getD 0 0 = 0 then root.nr
      else
        firstNr (sameAt name (dirBytes s root)) (numAt (dirBytes s root))
          (searched root) 0

theorem getFileInodeNr_number (h : getFileInodeNr path s = .ok nr t) :
    nr = numberOf s path := by
  rw [getFileInodeNr] at h
  rw [numberOf]
  cases hname : getFileName path with
  | none =>
      rw [hname] at h
      cases h
      rfl
  | some name =>
      rw [hname] at h
      dsimp only at h ⊢
      rw [run_get_bind] at h
      obtain ⟨p, hp⟩ : ∃ p, p = s.inodeTable s.rootInode := ⟨_, rfl⟩
      rw [← hp] at h ⊢
      by_cases hempty : name.getD 0 0 = 0
      · rw [if_pos hempty] at h ⊢
        cases h
        rfl
      · rw [if_neg hempty] at h ⊢
        have h511 := quotient_toInt (p.fileSize + 511) 512 (by decide)
        have h16 := quotient_toInt p.fileSize 16 (by decide)
        have hentries : (p.fileSize / 16).toNat = p.fileSize.toNat / 16 :=
          BitVec.toNat_udiv
        rw [h511, h16, Int.toNat_natCast, hentries] at h
        exact searchSects_ok h

theorem numberOf_absent (s : Fs) (path : List Byte) :
    numberOf s path = INVALID_INODE ↔ Absent s path := by
  rw [numberOf]
  cases hname : getFileName path with
  | none =>
      refine ⟨fun _ name hn => ?_, fun _ => rfl⟩
      rw [hname] at hn
      cases hn
  | some name =>
      dsimp only
      constructor
      · intro h name' hname'
        rw [hname] at hname'
        cases hname'
        split at h
        · rename_i hempty
          rw [if_pos hempty]
          exact h
        · rename_i hempty
          rw [if_neg hempty]
          exact firstNr_iff.mp h
      · intro h
        have hfirst := h name hname
        split at hfirst
        · rename_i hempty
          rw [if_pos hempty]
          exact hfirst
        · rename_i hempty
          rw [if_neg hempty]
          exact firstNr_iff.mpr hfirst

/-- A search that ends has found no inode exactly where there is none. -/
theorem getFileInodeNr_absent (h : getFileInodeNr path s = .ok nr t) :
    nr = INVALID_INODE ↔ Absent s path := by
  rw [getFileInodeNr_number h, numberOf_absent]

end Search

/-! ## The handlers that answer -1 -/

section Handlers

variable {s t : Fs} {path pathname : List Byte} {flags : BitVec 32} {pid : Int}

theorem run_map {α β : Type} {x : FsM α} {f : α → β} {b : β} :
    (f <$> x) s = .ok b t ↔ ∃ a, x s = .ok a t ∧ f a = b := by
  rw [map_eq_pure_bind, run_bind]
  constructor
  · rintro ⟨a, u, hx, h⟩
    cases h
    exact ⟨a, hx, rfl⟩
  · rintro ⟨a, hx, rfl⟩
    exact ⟨a, t, hx, rfl⟩

/-- A file that is not created leaves no trace. -/
theorem createFile_null (h : createFile path s = .ok none t) : s = t := by
  rw [createFile] at h
  cases hname : getFileName path with
  | none =>
      rw [hname] at h
      cases h
      rfl
  | some name =>
      rw [hname] at h
      simp only [run_bind] at h
      obtain ⟨_, _, -, _, _, -, _, _, -, _, _, -, _, _, -, _, _, -, h⟩ := h
      cases h

/-- Without an inode only the directory was read. -/
theorem findInode_null {p : Option (Option (Fin NR_INODE))}
    (hp : p = none ∨ p = some none) (h : findInode path flags s = .ok p t) :
    ∃ g, t = { s with fsbuf := g } := by
  obtain ⟨nr, s₁, hsearch, h⟩ := run_bind.mp h
  obtain ⟨⟨g, hs₁⟩, -⟩ := run_getFileInodeNr hsearch
  have hsame : s₁ = t → ∃ g, t = { s with fsbuf := g } := by
    rintro rfl
    exact ⟨g, hs₁⟩
  refine hsame ?_
  split at h
  · split at h
    · obtain ⟨q, hcreate, rfl⟩ := run_map.mp h
      rcases hp with hp | hp
      · cases hp
      · cases hp
        exact createFile_null hcreate
    · cases h
      rfl
  · rename_i hnr
    split at h
    · split at h
      · obtain ⟨_, _, hcheck, h⟩ := run_bind.mp h
        cases h
        exact (run_check.mp hcheck).2
      · obtain ⟨_, _, hcheck, h⟩ := run_bind.mp h
        obtain ⟨-, rfl⟩ := run_check.mp hcheck
        cases hname : getFileName path with
        | none =>
            rw [hname] at h
            cases h
            rfl
        | some name =>
            rw [hname] at h
            dsimp only at h
            rw [run_get_bind] at h
            obtain ⟨q, hget, rfl⟩ := run_map.mp h
            obtain ⟨i, rfl, -⟩ := run_getFileInode hnr hget
            rcases hp with hp | hp <;> cases hp
    · cases h
      rfl

/-- **`do_open`** answers -1 without an inode only. -/
theorem open_refused (h : doOpen pid pathname flags s = .ok (-1) t) :
    Same s t := by
  rw [doOpen] at h
  obtain ⟨_, _, hcheck, h⟩ := run_bind.mp h
  obtain ⟨-, rfl⟩ := run_check.mp hcheck
  rw [run_get_bind] at h
  cases hfd : freeFd s pid with
  | none =>
      rw [hfd] at h
      cases h
  | some fd =>
      rw [hfd] at h
      obtain ⟨p, s₁, hfind, h⟩ := run_bind.mp h
      have hnull : ∀ {q : Option (Option (Fin NR_INODE))},
          q = none ∨ q = some none →
          findInode (pathname.takeWhile (· ≠ 0)) flags s = .ok q s₁ →
          Same s s₁ := by
        intro q hq hfind
        obtain ⟨g, rfl⟩ := findInode_null hq hfind
        exact same_fsbuf s g
      cases p with
      | none =>
          cases h
          exact hnull (Or.inl rfl) hfind
      | some q =>
          dsimp only at h
          obtain ⟨_, s₂, htrunc, h⟩ := run_bind.mp h
          rw [run_get_bind] at h
          cases hdesc : freeDesc s₂ with
          | none =>
              rw [hdesc] at h
              cases h
          | some d =>
              rw [hdesc] at h
              cases q with
              | none =>
                  rw [truncInode] at htrunc
                  split at htrunc
                  · cases htrunc
                    cases h
                    exact hnull (Or.inr rfl) hfind
                  · cases htrunc
              | some i =>
                  obtain ⟨_, _, -, h⟩ := run_bind.mp h
                  obtain ⟨_, _, -, h⟩ := run_bind.mp h
                  have hret := (EStateM.Result.ok.inj h).1
                  omega

theorem seekPos_state {pos fSize off whence : Int} {p : Option Int}
    (h : seekPos pos fSize off whence s = .ok p t) : s = t := by
  rw [seekPos] at h
  split at h
  · cases h
    rfl
  · split at h
    · obtain ⟨_, hadd, -⟩ := run_map.mp h
      exact (run_intAdd.mp hadd).2.2
    · split at h
      · obtain ⟨_, hadd, -⟩ := run_map.mp h
        exact (run_intAdd.mp hadd).2.2
      · cases h
        rfl

/-- **`do_lseek`** moves the descriptor last. -/
theorem lseek_refused {fd off whence : Int}
    (h : doLseek pid fd off whence s = .ok (-1) t) : Same s t := by
  obtain ⟨k, s₁, hk, h⟩ := run_bind.mp h
  have hslot : s = s₁ := by
    rw [fdSlot] at hk
    split at hk
    · cases hk
      rfl
    · cases hk
  subst hslot
  rw [run_get_bind] at h
  cases hd : s.fileDesc pid k with
  | none =>
      rw [hd] at h
      cases h
  | some d =>
      rw [hd] at h
      dsimp only at h
      cases hi : (s.fileDescTable d).inode with
      | none =>
          rw [hi] at h
          cases h
      | some i =>
          rw [hi] at h
          obtain ⟨target, s₂, hseek, h⟩ := run_bind.mp h
          obtain rfl := seekPos_state hseek
          cases target with
          | none =>
              cases h
              exact same_fsbuf s s.fsbuf
          | some pos =>
              dsimp only at h
              split at h
              · cases h
                exact same_fsbuf s s.fsbuf
              · rename_i hpos
                obtain ⟨_, _, -, h⟩ := run_bind.mp h
                have hret := (EStateM.Result.ok.inj h).1
                omega

/-- **`do_stat`** has looked for the path only. -/
theorem stat_refused (h : doStat pathname s = .ok none t) : Same s t := by
  obtain ⟨_, _, hcheck, h⟩ := run_bind.mp h
  obtain ⟨-, rfl⟩ := run_check.mp hcheck
  obtain ⟨nr, s₁, hsearch, h⟩ := run_bind.mp h
  obtain ⟨⟨g, rfl⟩, -⟩ := run_getFileInodeNr hsearch
  have hkept := same_fsbuf s g
  split at h
  · cases h
    exact hkept
  · rename_i hnr
    cases hname : getFileName (pathname.takeWhile (· ≠ 0)) with
    | none =>
        rw [hname] at h
        cases h
        exact hkept
    | some name =>
        rw [hname] at h
        dsimp only at h
        rw [run_get_bind] at h
        obtain ⟨q, s₂, hget, h⟩ := run_bind.mp h
        obtain ⟨i, rfl, -⟩ := run_getFileInode hnr hget
        dsimp only at h
        rw [run_get_bind] at h
        obtain ⟨_, _, -, h⟩ := run_bind.mp h
        cases h

/-- A use of the inode has been counted. -/
theorem not_same_of_get {dev nr : Int} {p : Option (Fin NR_INODE)}
    (hnr : nr ≠ 0) (h : getFileInode dev nr s = .ok p t) :
    t.inodeTable ≠ s.inodeTable := by
  obtain ⟨i, -, ⟨-, rfl⟩ | ⟨-, hfree, sb, -, -, rfl⟩⟩ := run_getFileInode hnr h
  · intro heq
    have hcnt := congrArg Inode.cnt (congrFun heq i)
    rw [updInode_self] at hcnt
    dsimp only at hcnt
    omega
  · intro heq
    have hcnt := congrArg Inode.cnt (congrFun heq i)
    have hzero : (s.inodeTable i).cnt = 0 := by
      have h := List.find?_some hfree
      exact of_decide_eq_true h
    dsimp only at hcnt
    rw [updInode_self, hzero] at hcnt
    cases hcnt

/-- An inode that was found and is not removed stays in use. -/
theorem unlinkInode_refused {nr : Int} (hnr : nr ≠ 0)
    (hname : getFileName path ≠ none)
    (h : unlinkInode path nr s = .ok (-1) t) : t.inodeTable ≠ s.inodeTable := by
  rw [unlinkInode] at h
  cases hsome : getFileName path with
  | none => exact absurd hsome hname
  | some name =>
      rw [hsome] at h
      dsimp only at h
      rw [run_get_bind] at h
      obtain ⟨p, s₁, hget, h⟩ := run_bind.mp h
      obtain ⟨i, rfl, -⟩ := run_getFileInode hnr hget
      have hchanged := not_same_of_get hnr hget
      dsimp only at h
      rw [run_get_bind] at h
      split at h
      · cases h
        exact hchanged
      · split at h
        · cases h
          exact hchanged
        · -- a file that is removed is answered with 0
          simp only [run_bind] at h
          obtain ⟨_, _, -, _, _, -, _, _, -, _, _, -, h⟩ := h
          cases h

/-- **`do_unlink`** has counted a use of what it has found. -/
theorem unlink_refused (h : doUnlink pathname s = .ok (-1) t) :
    Same s t ↔ pathname.takeWhile (· ≠ 0) = [slash] ∨
      Absent s (pathname.takeWhile (· ≠ 0)) := by
  obtain ⟨_, _, hcheck, h⟩ := run_bind.mp h
  obtain ⟨-, rfl⟩ := run_check.mp hcheck
  obtain ⟨path, hpath⟩ : ∃ path, path = pathname.takeWhile (· ≠ 0) := ⟨_, rfl⟩
  rw [← hpath] at h ⊢
  by_cases hslash : path = [slash]
  · rw [if_pos hslash] at h
    cases h
    exact ⟨fun _ => Or.inl hslash, fun _ => same_fsbuf s s.fsbuf⟩
  · rw [if_neg hslash] at h
    obtain ⟨nr, s₁, hsearch, h⟩ := run_bind.mp h
    obtain ⟨⟨g, rfl⟩, -⟩ := run_getFileInodeNr hsearch
    have habsent := getFileInodeNr_absent hsearch
    have hname : nr ≠ INVALID_INODE → getFileName path ≠ none := by
      intro hnr hnone
      rw [getFileInodeNr, hnone] at hsearch
      exact hnr (EStateM.Result.ok.inj hsearch).1.symm
    by_cases hnr : nr = INVALID_INODE
    · rw [if_pos hnr] at h
      cases h
      exact ⟨fun _ => Or.inr (habsent.mp hnr), fun _ => same_fsbuf s g⟩
    · rw [if_neg hnr] at h
      have hchanged : ¬ Same s t :=
        fun hsame => unlinkInode_refused hnr (hname hnr) h hsame.inodes
      refine ⟨fun hsame => absurd hsame hchanged, fun hcond => ?_⟩
      exact absurd (habsent.mpr (hcond.resolve_left hslash)) hnr

end Handlers

/-! ## What a refused request leaves -/

/-- The requests whose handlers answer -1 for a refusal. -/
def canRefuse : Request → Prop
  | .close _ => False
  | .readWrite .. => False
  | _ => True

/-- **THE CONDITION**: the request does not ask to remove something that is
    there, other than by the path `/`. -/
def RefuseCond (s : Fs) : Request → Prop
  | .unlink pathname =>
      pathname.takeWhile (· ≠ 0) = [slash] ∨
        Absent s (pathname.takeWhile (· ≠ 0))
  | _ => True

/-- One request. -/
theorem refuse_step {req : Request} {pid : Int} {s t : Fs}
    (hreq : canRefuse req) (h : handle pid req s = .ok (-1) t) :
    Same s t ↔ RefuseCond s req := by
  cases req with
  | «open» pathname flags => exact iff_of_true (open_refused h) trivial
  | close fd => exact hreq.elim
  | lseek fd off whence => exact iff_of_true (lseek_refused h) trivial
  | readWrite io fd len reply buf => exact hreq.elim
  | unlink pathname => exact unlink_refused h
  | stat pathname =>
      obtain ⟨r, _, hstat, h⟩ := run_bind.mp h
      cases r with
      | none =>
          cases h
          exact iff_of_true (stat_refused hstat) trivial
      | some st =>
          have hret := (EStateM.Result.ok.inj h).1
          rw [Option.isSome_some, if_pos rfl] at hret
          omega

/-- **REFUSED REQUESTS**, in every run from every state, leave the file system
    as it was exactly under the condition. -/
theorem refused_iff (s : Fs) (rs : List (Int × Request)) (e : Event)
    (he : e ∈ events s rs) (hreq : canRefuse e.req) (hret : e.ret = -1) :
    Same e.before e.after ↔ RefuseCond e.before e.req := by
  have hall := events_all (P := fun e => canRefuse e.req → e.ret = -1 →
    (Same e.before e.after ↔ RefuseCond e.before e.req))
    (fun pid req s ret t hrun hreq hret => refuse_step hreq (by
      rw [← show ret = -1 from hret]
      exact hrun)) rs s e he
  exact hall hreq hret

/-- Nothing has changed after the search for a name that is not there. -/
theorem refused_iff_missing : ∃ e ∈ events (demoFs demoDisk (demoRoot 80))
    [(5, .open [slash, 0x78] O_RDWR)], e.ret = -1 ∧ Same e.before e.after := by
  have hret : (outcome (handle 5 (.open [slash, 0x78] O_RDWR)
      (demoFs demoDisk (demoRoot 80)))).map Prod.fst = some (-1) := by decide
  obtain ⟨⟨ret, t⟩, hrun, hfst⟩ := Option.map_eq_some_iff.mp hret
  obtain rfl : ret = -1 := hfst
  have he := events_head (outcome_eq_some.mp hrun) []
  exact ⟨_, he, rfl, (refused_iff _ _ _ he trivial rfl).mpr trivial⟩

/-- The first request to a new file system, to remove `/dev_tty0`, leaves an
    inode in use. -/
theorem unlink_tty_keeps_inode :
    ¬ ∀ (sectCnt : BitVec 32) (s₀ s : Fs) (rs : List (Int × Request))
      (e : Event), initFs sectCnt s₀ = .ok () s → e ∈ events s rs → canRefuse e.req →
      e.ret = -1 → Same e.before e.after := by
  intro hall
  have hcnt : ((outcome (initFs 40960 (demoFs demoDisk (demoRoot 0)))).bind
      fun p => (outcome (handle 5 (.unlink (slash :: ttyName 0)) p.2)).map
        fun q => (q.1, (p.2.inodeTable ⟨1, by decide⟩).cnt,
          (q.2.inodeTable ⟨1, by decide⟩).cnt)) = some (-1, 0, 1) := by decide
  obtain ⟨⟨_, s⟩, hinit, hcnt⟩ := Option.bind_eq_some_iff.mp hcnt
  obtain ⟨⟨ret, t⟩, hrun, hcnt⟩ := Option.map_eq_some_iff.mp hcnt
  obtain ⟨hret, hbefore, hafter⟩ : ret = -1 ∧
      (s.inodeTable ⟨1, by decide⟩).cnt = 0 ∧
      (t.inodeTable ⟨1, by decide⟩).cnt = 1 := by
    simpa only [Prod.mk.injEq] using hcnt
  subst hret
  have hsame := hall _ _ _ _ _ (outcome_eq_some.mp hinit)
    (events_head (outcome_eq_some.mp hrun) []) trivial rfl
  have hcnt := congrArg Inode.cnt
    (congrFun hsame.inodes (⟨1, by decide⟩ : Fin NR_INODE))
  rw [hbefore] at hcnt
  exact absurd (hafter.symm.trans hcnt) (by decide)

end KosRefusals
