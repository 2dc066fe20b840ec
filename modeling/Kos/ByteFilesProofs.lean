import Mathlib.Logic.Function.Basic

/-! # Byte files

    Files that are sequences, under names, and descriptors with a position.

    * `Ahead` says what lies behind a position and in front of it; what is in
      front is read (`read_ahead`);
    * what is written takes the place of as much, or is appended at the end
      (`write_ahead`);
    * a file that is opened to be truncated is empty (`open_trunc`). -/

namespace ByteFiles

variable {ν β : Type}

/-- Files by name, and descriptors with a position. -/
structure Files (ν β : Type) where
  content : ν → Option (List β)
  desc    : Nat → Option (ν × Nat)
  nextFd  : Nat

/-- The descriptor `fd` is at `pos` of the file `name`. -/
def Files.seek (s : Files ν β) (fd : Nat) (name : ν) (pos : Nat) : Files ν β :=
  { s with desc := Function.update s.desc fd (some (name, pos)) }

/-- The descriptor is gone. -/
def Files.close (s : Files ν β) (fd : Nat) : Files ν β :=
  { s with desc := Function.update s.desc fd none }

/-- The position of a descriptor. -/
def Files.lseek (s : Files ν β) (fd pos : Nat) : Files ν β :=
  match s.desc fd with
  | none => s
  | some (name, _) => s.seek fd name pos

/-- At most `n` from the position on. -/
def Files.read (s : Files ν β) (fd n : Nat) : List β × Files ν β :=
  match s.desc fd with
  | none => ([], s)
  | some (name, pos) =>
      let bs := (((s.content name).getD []).drop pos).take n
      (bs, s.seek fd name (pos + bs.length))

section Write

variable [DecidableEq ν]

/-- The file has these bytes. -/
def Files.store (s : Files ν β) (name : ν) (l : List β) : Files ν β :=
  { s with content := Function.update s.content name (some l) }

/-- Over what is there, from the position on. -/
def Files.write (s : Files ν β) (fd : Nat) (bs : List β) : Nat × Files ν β :=
  match s.desc fd with
  | none => (0, s)
  | some (name, pos) =>
      let l := (s.content name).getD []
      (bs.length, (s.store name (l.take pos ++ bs ++
        l.drop (pos + bs.length))).seek fd name (pos + bs.length))

/-- A new descriptor at the start of the file, or none for a file that is not
    there and not to be made. -/
def Files.openFile (s : Files ν β) (name : ν) (creat trunc : Bool) :
    Option Nat × Files ν β :=
  let opened (s : Files ν β) : Option Nat × Files ν β :=
    (some s.nextFd, { s.seek s.nextFd name 0 with nextFd := s.nextFd + 1 })
  match s.content name with
  | none => if creat then opened (s.store name []) else (none, s)
  | some _ => if trunc then opened (s.store name []) else opened s

end Write

/-- The descriptor `fd` is behind `pre` of the file `name`, and in front of
    `rest`. -/
structure Ahead (s : Files ν β) (fd : Nat) (name : ν) (pre rest : List β) :
    Prop where
  desc    : s.desc fd = some (name, pre.length)
  content : s.content name = some (pre ++ rest)

section Rules

variable {s t : Files ν β} {fd fd' : Nat} {name name' : ν}
  {pre pre' bs rest rest' : List β}

theorem ahead_congr (h : Ahead s fd name pre rest) (hd : t.desc fd = s.desc fd)
    (hc : t.content name = s.content name) : Ahead t fd name pre rest :=
  ⟨hd.trans h.desc, hc.trans h.content⟩

/-- **READ** what is ahead. -/
theorem read_ahead (h : Ahead s fd name pre (bs ++ rest)) :
    ∃ t, s.read fd bs.length = (bs, t) ∧ Ahead t fd name (pre ++ bs) rest ∧
      t.content = s.content ∧ t.nextFd = s.nextFd ∧
      ∀ g, g ≠ fd → t.desc g = s.desc g := by
  refine ⟨s.seek fd name (pre.length + bs.length), ?_, ⟨?_, ?_⟩, rfl, rfl,
    fun g hg => Function.update_of_ne hg ..⟩
  · rw [Files.read, h.desc]
    simp only [h.content, Option.getD_some, List.drop_left, List.take_left]
  · rw [List.length_append]
    exact Function.update_self ..
  · rw [List.append_assoc]
    exact h.content

theorem lseek_start (h : Ahead s fd name pre rest) :
    Ahead (s.lseek fd 0) fd name [] (pre ++ rest) ∧
      (s.lseek fd 0).content = s.content := by
  rw [Files.lseek, h.desc]
  exact ⟨⟨Function.update_self .., h.content⟩, rfl⟩

variable [DecidableEq ν]

variable (bs) in
/-- **WRITE** over as much as is written. -/
theorem write_ahead (h : Ahead s fd name pre (pre' ++ rest))
    (hlen : pre'.length = bs.length ∨ pre' = [] ∧ rest = []) :
    ∃ t, s.write fd bs = (bs.length, t) ∧ Ahead t fd name (pre ++ bs) rest ∧
      t.nextFd = s.nextFd ∧ (∀ x, x ≠ name → t.content x = s.content x) ∧
      ∀ g, g ≠ fd → t.desc g = s.desc g := by
  have hover : ((s.content name).getD []).take pre.length ++ bs ++
      ((s.content name).getD []).drop (pre.length + bs.length) =
        pre ++ bs ++ rest := by
    rw [h.content, Option.getD_some, List.take_left]
    rcases hlen with hlen | ⟨rfl, rfl⟩
    · rw [← hlen, ← List.length_append, ← List.append_assoc, List.drop_left]
    · rw [List.append_nil, List.append_nil,
        List.drop_eq_nil_of_le (Nat.le_add_right _ _)]
  refine ⟨(s.store name (pre ++ bs ++ rest)).seek fd name
    (pre.length + bs.length), ?_, ⟨?_, Function.update_self ..⟩, rfl,
    fun x hx => Function.update_of_ne hx .., fun g hg => Function.update_of_ne hg ..⟩
  · rw [Files.write, h.desc]
    simp only [hover]
  · rw [List.length_append]
    exact Function.update_self ..

/-- **TRUNCATE**, or make a file. -/
theorem open_trunc (s : Files ν β) (name : ν) :
    ∃ t, s.openFile name true true = (some s.nextFd, t) ∧
      Ahead t s.nextFd name [] [] ∧ t.nextFd = s.nextFd + 1 ∧
      (∀ x, x ≠ name → t.content x = s.content x) ∧
      ∀ g, g ≠ s.nextFd → t.desc g = s.desc g := by
  refine ⟨{ (s.store name []).seek s.nextFd name 0 with nextFd := s.nextFd + 1 },
    ?_, ⟨Function.update_self .., Function.update_self ..⟩, rfl,
    fun x hx => Function.update_of_ne hx .., fun g hg => Function.update_of_ne hg ..⟩
  rw [Files.openFile]
  cases s.content name with
  | none => rfl
  | some l => rfl

theorem open_old (hc : s.content name = some rest) :
    ∃ t, s.openFile name false false = (some s.nextFd, t) ∧
      Ahead t s.nextFd name [] rest ∧ t.nextFd = s.nextFd + 1 ∧
      t.content = s.content := by
  refine ⟨{ s.seek s.nextFd name 0 with nextFd := s.nextFd + 1 }, ?_,
    ⟨Function.update_self .., hc⟩, rfl, rfl⟩
  rw [Files.openFile, hc]
  rfl

end Rules

end ByteFiles
