import Mathlib.Algebra.Group.Nat.Defs

/-!
# Interning

A table is an array whose entries have their places for ids. Interning finds the
first place of an entry, or adds the entry at the end. So places keep what they
hold, and as long as there are ids for all of them, entries and the ids that
interning gives out correspond one to one.
-/

namespace NumericEngine

variable {α : Type} {xs : Array α} {a b : α} {i : UInt32} {n : Nat}

theorem getElem?_push_of_some (h : xs[n]? = some a) : (xs.push b)[n]? = some a := by
  have hlt := (Array.getElem?_eq_some_iff.1 h).1
  rw [Array.getElem?_push, if_neg (Nat.ne_of_lt hlt), h]

theorem toNat_place (h : n < xs.size) (hsize : xs.size ≤ 2 ^ 32) : (UInt32.ofNat n).toNat = n := by
  rw [UInt32.toNat_ofNat', Nat.mod_eq_of_lt (Nat.lt_of_lt_of_le h hsize)]

variable [BEq α]

/-- The first place of an entry. -/
def firstId (xs : Array α) (a : α) : Option UInt32 := (xs.findIdx? (· == a)).map UInt32.ofNat

def interned (xs : Array α) (a : α) : UInt32 × Array α :=
  match firstId xs a with
  | some i => (i, xs)
  | none => (UInt32.ofNat xs.size, xs.push a)

def internAll (xs : Array α) (cs : List α) : Array α := cs.foldl (fun ys c => (interned ys c).2) xs

theorem getElem?_interned (h : xs[n]? = some a) : (interned xs b).2[n]? = some a := by
  unfold interned
  split
  · exact h
  · exact getElem?_push_of_some h

theorem getElem?_internAll (cs : List α) (h : xs[n]? = some a) : (internAll xs cs)[n]? = some a := by
  induction cs generalizing xs with
  | nil => exact h
  | cons c cs ih => exact ih (getElem?_interned h)

theorem size_le_interned (xs : Array α) (a : α) : xs.size ≤ (interned xs a).2.size := by
  unfold interned
  split
  · exact Nat.le_refl _
  · simp

theorem mem_of_mem_interned (h : b ∈ (interned xs a).2) : b ∈ xs ∨ b = a := by
  unfold interned at h
  split at h
  · exact .inl h
  · exact Array.mem_push.1 h

theorem firstId_push (xs : Array α) (a b : α) : firstId (xs.push b) a =
    (firstId xs a).or (if b == a then some (UInt32.ofNat xs.size) else none) := by
  simp only [firstId, Array.findIdx?_push]
  cases xs.findIdx? (· == a) with
  | some n => rfl
  | none => cases b == a <;> rfl

theorem firstId_interned_of_some (h : firstId xs a = some i) : firstId (interned xs b).2 a = some i := by
  unfold interned
  split
  · exact h
  · rw [firstId_push, h]
    rfl

theorem firstId_internAll (cs : List α) (h : firstId xs a = some i) : firstId (internAll xs cs) a = some i := by
  induction cs generalizing xs with
  | nil => exact h
  | cons c cs ih => exact ih (firstId_interned_of_some h)

variable [LawfulBEq α]

theorem firstId_eq_none : firstId xs a = none ↔ a ∉ xs := by
  rw [firstId, Option.map_eq_none_iff, Array.findIdx?_eq_none_iff]
  constructor
  · intro h ha
    simpa using h a ha
  · intro h x hx
    exact beq_false_of_ne fun hxa => h (hxa ▸ hx)

theorem firstId_eq_some (hsize : xs.size ≤ 2 ^ 32) : firstId xs a = some i ↔
    xs[i.toNat]? = some a ∧ ∀ n, xs[n]? = some a → i.toNat ≤ n := by
  have hfirst : ∀ i, firstId xs a = some i →
      xs[i.toNat]? = some a ∧ ∀ n, xs[n]? = some a → i.toNat ≤ n := by
    intro i h
    obtain ⟨k, hk, rfl⟩ := Option.map_eq_some_iff.1 h
    obtain ⟨hlt, heq, hleast⟩ := Array.findIdx?_eq_some_iff_getElem.1 hk
    rw [toNat_place hlt hsize]
    refine ⟨Array.getElem?_eq_some_iff.2 ⟨hlt, eq_of_beq heq⟩, fun n hn => ?_⟩
    obtain ⟨hn, hna⟩ := Array.getElem?_eq_some_iff.1 hn
    refine Nat.le_of_not_lt fun hnk => hleast n hnk ?_
    simp [hna]
  refine ⟨hfirst i, fun ⟨hi, hleast⟩ => ?_⟩
  cases hj : firstId xs a with
  | none => exact absurd (Array.mem_of_getElem? hi) (firstId_eq_none.1 hj)
  | some j =>
    obtain ⟨hj, hjleast⟩ := hfirst j hj
    have heq : j.toNat = i.toNat := Nat.le_antisymm (hjleast _ hi) (hleast _ hj)
    rw [UInt32.toNat_inj.1 heq]

theorem getElem?_interned_self (h : (interned xs a).2.size ≤ 2 ^ 32) :
    (interned xs a).2[(interned xs a).1.toNat]? = some a := by
  unfold interned at h ⊢
  split at h
  · rename_i hi
    exact ((firstId_eq_some h).1 hi).1
  · have hlt : xs.size < (xs.push a).size := by simp
    rw [toNat_place hlt h, Array.getElem?_push_size]

/-- What was interned is found at its id, also when the table has grown. -/
theorem firstId_interned (xs : Array α) (a : α) : firstId (interned xs a).2 a = some (interned xs a).1 := by
  unfold interned
  split
  · assumption
  · rename_i hnone
    rw [firstId_push, hnone]
    simp

/-! ## An index beside the entries -/

/-- A table that does not search its entries but keeps the first place of each. -/
structure Indexed (α : Type) where
  entries : Array α := #[]
  index : List (α × UInt32) := []

namespace Indexed

/-- Adds an entry at the end; an entry that was there before keeps its place. -/
def add (t : Indexed α) (a : α) : Indexed α where
  entries := t.entries.push a
  index := if (t.index.lookup a).isSome then t.index else (a, UInt32.ofNat t.entries.size) :: t.index

def ofEntries (as : List α) : Indexed α := as.foldl add {}

def intern (t : Indexed α) (a : α) : UInt32 × Indexed α :=
  match t.index.lookup a with
  | some i => (i, t)
  | none => (UInt32.ofNat t.entries.size, t.add a)

/-- The index tells what a search would find. -/
def Agrees (t : Indexed α) : Prop := ∀ a, t.index.lookup a = firstId t.entries a

theorem Agrees.add {t : Indexed α} (h : t.Agrees) (b : α) : (t.add b).Agrees := by
  intro a
  simp only [Indexed.add, firstId_push, ← h a]
  split
  · rename_i hb
    by_cases hab : a = b
    · subst hab
      obtain ⟨i, hi⟩ := Option.isSome_iff_exists.1 hb
      rw [hi]
      rfl
    · rw [if_neg (by simpa using Ne.symm hab), Option.or_none]
  · rename_i hb
    rw [List.lookup_cons]
    by_cases hab : a = b
    · subst hab
      rw [Option.not_isSome_iff_eq_none.1 hb]
      simp
    · rw [if_neg (by simpa using Ne.symm hab), Option.or_none, beq_false_of_ne hab]

theorem ofEntries_agrees (as : List α) : (ofEntries as).Agrees ∧ (ofEntries as).entries = as.toArray := by
  have hrun : ∀ (as : List α) (t : Indexed α), t.Agrees →
      (as.foldl Indexed.add t).Agrees ∧ (as.foldl Indexed.add t).entries = t.entries ++ as.toArray := by
    intro as
    induction as with
    | nil => exact fun t h => ⟨h, by simp⟩
    | cons a as ih =>
      intro t h
      obtain ⟨hagrees, hentries⟩ := ih (t.add a) (h.add a)
      exact ⟨hagrees, by rw [List.foldl_cons, hentries]; simp [Indexed.add]⟩
  obtain ⟨hagrees, hentries⟩ := hrun as {} fun a => by simp [firstId]
  exact ⟨hagrees, hentries.trans (Array.empty_append ..)⟩

/-- With an index, interning gives the same ids and the same entries as with a search. -/
theorem Agrees.intern {t : Indexed α} (h : t.Agrees) (a : α) :
    (t.intern a).2.Agrees ∧ (t.intern a).1 = (interned t.entries a).1 ∧
      (t.intern a).2.entries = (interned t.entries a).2 := by
  unfold Indexed.intern interned
  rw [h a]
  cases firstId t.entries a with
  | some i => exact ⟨h, rfl, rfl⟩
  | none => exact ⟨h.add a, rfl, rfl⟩

theorem internAll_agrees (as cs : List α) :
    (cs.foldl (fun t c => (t.intern c).2) (ofEntries as)).Agrees ∧
      (cs.foldl (fun t c => (t.intern c).2) (ofEntries as)).entries = internAll as.toArray cs := by
  obtain ⟨hagrees, hentries⟩ := ofEntries_agrees as
  rw [← hentries]
  generalize ofEntries as = t at hagrees
  induction cs generalizing t with
  | nil => exact ⟨hagrees, rfl⟩
  | cons c cs ih =>
    obtain ⟨hagrees, -, hentries⟩ := hagrees.intern c
    rw [internAll, List.foldl_cons, List.foldl_cons, ← hentries]
    exact ih _ hagrees

end Indexed

/-! ## Tables -/

section

variable {τ ι : Type} (size : τ → Nat) (get? : τ → ι → Option α) (find? : τ → α → Option ι)
  (intern : τ → α → ι × τ) (index : ι → UInt32) (ofEntries : Array α → τ)

/-- The ids that a table gives out along every history. -/
structure Coherent : Prop where
  /-- When `a` is interned first and `b` last, with `cs` in between, then ids keep their meaning, equal
  entries and only these have equal ids, and an entry is looked up at the least of its places. -/
  ids : ∀ (t : τ) (a b : α) (cs : List α) (before after : τ) (i j : ι), intern t a = (i, before) →
    intern (cs.foldl (fun u c => (intern u c).2) before) b = (j, after) → size after < 2 ^ 32 →
    (∀ id c, get? t id = some c → get? after id = some c) ∧
    get? after i = some a ∧ get? after j = some b ∧ (i = j ↔ a = b) ∧
    ∀ c id, find? after c = some id ↔ get? after id = some c ∧
      ∀ id', get? after id' = some c → index id ≤ index id'
  /-- An index of the entries leads to the same ids. -/
  indexed : ∀ (as cs : List α) (a : α) (t : τ) (x : Indexed α),
    t = cs.foldl (fun t c => (intern t c).2) (ofEntries as.toArray) →
    x = cs.foldl (fun x c => (x.intern c).2) (Indexed.ofEntries as) →
    x.index.lookup a = (find? t a).map index ∧ (x.intern a).1 = index (intern t a).1

end

/-- A table whose operations are those of the array of its entries is coherent. -/
theorem coherent_of_entries {τ ι : Type} {size : τ → Nat} {get? : τ → ι → Option α}
    {find? : τ → α → Option ι} {intern : τ → α → ι × τ} {index : ι → UInt32}
    {ofEntries : Array α → τ} (entries : τ → Array α) (place : UInt32 → ι)
    (hplace : ∀ k, index (place k) = k) (hindex : ∀ id, place (index id) = id)
    (hentries : ∀ as, entries (ofEntries as) = as)
    (hsize : ∀ t, size t = (entries t).size)
    (hget : ∀ t id, get? t id = (entries t)[(index id).toNat]?)
    (hfind : ∀ t a, find? t a = (firstId (entries t) a).map place)
    (hintern : ∀ t a, (intern t a).1 = place (interned (entries t) a).1 ∧
      entries (intern t a).2 = (interned (entries t) a).2) :
    Coherent size get? find? intern index ofEntries := by
  have hrun : ∀ (cs : List α) u, entries (cs.foldl (fun u c => (intern u c).2) u) =
      internAll (entries u) cs := by
    intro cs
    induction cs with
    | nil => exact fun _ => rfl
    | cons c cs ih =>
      intro u
      rw [List.foldl_cons, ih, (hintern u c).2]
      rfl
  refine ⟨fun t a b cs before after i j hfirst hlast hfits => ?_, ?_⟩
  rotate_left
  · rintro as cs a t x rfl rfl
    obtain ⟨hagrees, hsame⟩ := Indexed.internAll_agrees as cs
    rw [hagrees a, (hagrees.intern a).2.1, hfind, (hintern _ a).1, hplace, Option.map_map, hrun, hentries, hsame]
    exact ⟨by simp [Function.comp_def, hplace], rfl⟩
  obtain ⟨rfl, hbefore⟩ : place (interned (entries t) a).1 = i ∧ (interned (entries t) a).2 = entries before := by
    rw [← (hintern t a).1, ← (hintern t a).2, hfirst]
    exact ⟨rfl, rfl⟩
  generalize hu : cs.foldl (fun u c => (intern u c).2) before = u at hlast
  have hmid : entries u = internAll (interned (entries t) a).2 cs := by rw [← hu, hrun, hbefore]
  obtain ⟨rfl, hafter⟩ : place (interned (entries u) b).1 = j ∧ (interned (entries u) b).2 = entries after := by
    rw [← (hintern u b).1, ← (hintern u b).2, hlast]
    exact ⟨rfl, rfl⟩
  have hle : (entries after).size ≤ 2 ^ 32 := Nat.le_of_lt (hsize after ▸ hfits)
  -- both ids are the first places of what they stand for, in the last table
  have hi : firstId (entries after) a = some (interned (entries t) a).1 := by
    rw [← hafter, hmid]
    exact firstId_interned_of_some (firstId_internAll cs (firstId_interned _ a))
  have hj : firstId (entries after) b = some (interned (entries u) b).1 := hafter ▸ firstId_interned _ b
  have hia := ((firstId_eq_some hle).1 hi).1
  have hjb := ((firstId_eq_some hle).1 hj).1
  simp only [hget, hplace, hfind]
  refine ⟨fun id c h => ?_, hia, hjb, ⟨fun hij => ?_, fun hab => ?_⟩, fun c id => ?_⟩
  · rw [← hafter, hmid]
    exact getElem?_interned (getElem?_internAll cs (getElem?_interned h))
  · have hij := congrArg index hij
    rw [hplace, hplace] at hij
    exact Option.some.inj (hia.symm.trans (hij ▸ hjb))
  · subst hab
    rw [Option.some.inj (hi.symm.trans hj)]
  · have hsome : (firstId (entries after) c).map place = some id ↔
        firstId (entries after) c = some (index id) := by
      constructor
      · intro h
        obtain ⟨k, hk, rfl⟩ := Option.map_eq_some_iff.1 h
        rw [hk, hplace]
      · intro h
        rw [h, Option.map_some, hindex]
    rw [hsome, firstId_eq_some hle]
    refine and_congr_right fun _ => ⟨fun h id' hid' => UInt32.le_iff_toNat_le.2 (h _ hid'), fun h n hn => ?_⟩
    have hn' : n = (index (place (UInt32.ofNat n))).toNat := by
      rw [hplace, toNat_place (Array.getElem?_eq_some_iff.1 hn).1 hle]
    rw [hn'] at hn ⊢
    exact UInt32.le_iff_toNat_le.1 (h _ hn)

end NumericEngine
