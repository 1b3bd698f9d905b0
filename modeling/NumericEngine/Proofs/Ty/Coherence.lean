import NumericEngine.Proofs.Ty.Table
import NumericEngine.Proofs.Value.Pool

/-!
# Tables and the layout memo agree

Types and constants are interned coherently, and it makes no difference whether
a table searches its entries or keeps an index of them. A memo that serves one
table holds the layouts of what the table holds, so it only ever answers what
computing the layout would.
-/

namespace NumericEngine

theorem TypeTable.coherent : Coherent size get? find? intern TypeId.index mk :=
  coherent_of_entries types TypeId.mk (fun _ => rfl) (fun _ => rfl) (fun _ => rfl) (fun _ => rfl) (fun _ _ => rfl)
    (fun t ty => by rw [find?, firstId, Option.map_map]; rfl) fun t ty => by simp [intern_eq]

theorem ConstantPool.coherent : Coherent size get? find? intern ConstId.index mk :=
  coherent_of_entries values ConstId.mk (fun _ => rfl) (fun _ => rfl) (fun _ => rfl)
    (fun _ => rfl) (fun _ _ => rfl)
    (fun p v => by rw [find?, firstId, Option.map_map]; rfl) fun p v => by simp [intern_eq]

/-- What is asked of a table and its memo. -/
inductive LayoutRequest where
  | intern (ty : Ty)
  | layoutOf (id : TypeId)
  | resolve (ty : Ty)

/-- A table and its memo. -/
structure LayoutServer where
  table : TypeTable
  memo : LayoutMemo := {}

namespace LayoutServer

/-- The layout that a request is answered with, if it asks for one. -/
def serve (s : LayoutServer) : LayoutRequest → Option Layout × LayoutServer
  | .intern ty => (none, { s with table := (s.table.intern ty).2 })
  | .layoutOf id => ((s.memo.layout? s.table id).1, { s with memo := (s.memo.layout? s.table id).2 })
  | .resolve ty =>
    (some (s.memo.resolve s.table ty).1, { s with memo := (s.memo.resolve s.table ty).2 })

def run (s : LayoutServer) (history : List LayoutRequest) : LayoutServer :=
  history.foldl (fun s r => (s.serve r).2) s

/-- The memo holds layouts of types in the table. -/
def Current (s : LayoutServer) : Prop :=
  ∀ id l, s.memo.entries.lookup id = some l → (s.table.get? id).map Ty.layout = some l

variable {s : LayoutServer}

theorem Current.layout? (h : s.Current) (id : TypeId) :
    (s.memo.layout? s.table id).1 = (s.table.get? id).map Ty.layout ∧
      { s with memo := (s.memo.layout? s.table id).2 }.Current := by
  unfold LayoutMemo.layout?
  split
  · rename_i l hl
    exact ⟨(h id l hl).symm, h⟩
  · cases hty : s.table.get? id with
    | none => exact ⟨rfl, h⟩
    | some ty =>
      refine ⟨rfl, fun id' l hl => ?_⟩
      simp only [List.lookup_cons] at hl
      split at hl
      · rename_i heq
        cases hl
        rw [eq_of_beq heq, hty]
        rfl
      · exact h id' l hl

theorem Current.resolve (h : s.Current) (hsize : s.table.size ≤ 2 ^ 32) (ty : Ty) :
    (s.memo.resolve s.table ty).1 = ty.layout ∧ { s with memo := (s.memo.resolve s.table ty).2 }.Current := by
  unfold LayoutMemo.resolve
  split
  · rename_i id hid
    obtain ⟨hanswer, hcurrent⟩ := h.layout? id
    have hget : s.table.get? id = some ty := by
      obtain ⟨n, hn, rfl⟩ := Option.map_eq_some_iff.1 hid
      exact ((firstId_eq_some hsize).1 (Option.map_eq_some_iff.2 ⟨n, hn, rfl⟩)).1
    rw [hget] at hanswer
    cases hmemo : s.memo.layout? s.table id with
    | mk answer memo =>
      rw [hmemo] at hanswer hcurrent
      subst hanswer
      exact ⟨rfl, hcurrent⟩
  · exact ⟨rfl, h⟩

theorem table_le_serve (s : LayoutServer) (r : LayoutRequest) : s.table.Le (s.serve r).2.table := by
  cases r with
  | intern ty => exact s.table.le_intern ty
  | layoutOf | resolve => exact .refl _

theorem table_le_run (s : LayoutServer) (history : List LayoutRequest) : s.table.Le (s.run history).table := by
  induction history generalizing s with
  | nil => exact .refl _
  | cons r history ih => exact (table_le_serve s r).trans (ih _)

theorem Current.serve (h : s.Current) (hsize : s.table.size ≤ 2 ^ 32) (r : LayoutRequest) :
    (s.serve r).2.Current := by
  cases r with
  | intern ty =>
    intro id l hl
    obtain ⟨u, hu, rfl⟩ := Option.map_eq_some_iff.1 (h id l hl)
    exact Option.map_eq_some_iff.2 ⟨u, (s.table.le_intern ty).get? id u hu, rfl⟩
  | layoutOf id => exact (h.layout? id).2
  | resolve ty => exact (h.resolve hsize ty).2

theorem Current.run (h : s.Current) (history : List LayoutRequest)
    (hsize : (s.run history).table.size ≤ 2 ^ 32) : (s.run history).Current := by
  induction history generalizing s with
  | nil => exact h
  | cons r history ih =>
    have hle := (table_le_serve s r).trans (table_le_run _ history)
    exact ih (h.serve (Nat.le_trans hle.size hsize) r) hsize

/-- Types and constants are interned coherently; an index of the entries leads to the same ids; and
after any history of requests, a memo that started empty answers with the layouts of the types. -/
theorem tables_coherent :
    Coherent TypeTable.size TypeTable.get? TypeTable.find? TypeTable.intern TypeId.index TypeTable.mk ∧
    Coherent ConstantPool.size ConstantPool.get? ConstantPool.find? ConstantPool.intern ConstId.index
      ConstantPool.mk ∧
    ∀ (types : Array Ty) (history : List LayoutRequest) (s : LayoutServer),
      s = ({ table := ⟨types⟩ } : LayoutServer).run history → s.table.size < 2 ^ 32 →
      (∀ id, (s.serve (.layoutOf id)).1 = (s.table.get? id).map Ty.layout) ∧
        ∀ ty, (s.serve (.resolve ty)).1 = some ty.layout := by
  refine ⟨TypeTable.coherent, ConstantPool.coherent, ?_⟩
  rintro types history s rfl hsize
  have hsize := Nat.le_of_lt hsize
  have hempty : ({ table := ⟨types⟩ } : LayoutServer).Current := fun _ _ hl => by cases hl
  have hcurrent := hempty.run history hsize
  exact ⟨fun id => (hcurrent.layout? id).1, fun ty => congrArg some (hcurrent.resolve hsize ty).1⟩

/-- A table that holds a type twice, and is asked for it after another was added. -/
theorem tables_coherent_twice :
    let s := ({ table := ⟨#[.bool, .i64, .bool]⟩ } : LayoutServer).run
      [.layoutOf ⟨2⟩, .intern .f64, .resolve .bool, .layoutOf ⟨3⟩]
    s.table.size = 4 ∧ s.memo.size = 3 ∧ s.table.get? ⟨2⟩ = some .bool ∧ s.table.find? .bool = some ⟨0⟩ ∧
      (s.serve (.layoutOf ⟨2⟩)).1 = some Ty.bool.layout ∧ (s.serve (.resolve .f64)).1 = some Ty.f64.layout := by
  intro s
  have hsize : s.table.size = 4 := by decide +kernel
  have hbool : s.table.get? ⟨2⟩ = some .bool := by decide +kernel
  obtain ⟨hid, hty⟩ := tables_coherent.2.2 _ _ s rfl (by rw [hsize]; decide)
  exact ⟨hsize, by decide +kernel, hbool, by decide +kernel, by rw [hid, hbool]; rfl, hty .f64⟩

end LayoutServer

end NumericEngine
