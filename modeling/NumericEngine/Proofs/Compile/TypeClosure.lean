import Mathlib.Logic.Relation
import NumericEngine.Compile.TypeClosure
import NumericEngine.Proofs.Ty.Table

/-!
# Closed tables of types

The loop that closes a table takes a type off its worklist, and puts there what
the type calls for. This makes the worklist lighter, also where the argument
record of a function is a type that is new. What the types looked at call for is
pending until it has been looked at too; so all of it is in the table at the end.
-/

namespace NumericEngine

open List
open Relation (ReflTransGen)

namespace Ty

theorem map_recordFrom (i : Nat) (ps : List Ty) : (recordFrom i ps).map (·.2) = ps := by
  induction ps generalizing i with
  | nil => rfl
  | cons p ps ih => rw [recordFrom, map_cons, ih]

theorem fieldsWeight_eq (fs : List (String × Ty)) : fieldsWeight fs = paramsWeight (fs.map (·.2)) := by
  induction fs with
  | nil => rfl
  | cons f fs ih => rw [fieldsWeight, map_cons, paramsWeight, ih]

theorem paramsWeight_append (ts us : List Ty) :
    paramsWeight (ts ++ us) = paramsWeight ts + paramsWeight us := by
  induction ts with
  | nil => simp [paramsWeight]
  | cons t ts ih => simp only [cons_append, paramsWeight, ih, Nat.add_assoc]

theorem paramsWeight_reverse (ts : List Ty) : paramsWeight ts.reverse = paramsWeight ts := by
  induction ts with
  | nil => rfl
  | cons t ts ih => rw [reverse_cons, paramsWeight_append, ih, paramsWeight, paramsWeight, paramsWeight,
      Nat.add_zero, Nat.add_comm]

theorem weight_parts (t : Ty) : paramsWeight t.parts < t.weight := by
  cases t with
  | prim | vector | tensor | complex | reference => simp [parts, weight, paramsWeight]
  | struct fs => rw [parts, weight, fieldsWeight_eq, Nat.add_comm]; exact Nat.lt_succ_self _
  | function ps r =>
    rw [parts, paramsWeight, paramsWeight_append, record, weight, weight, fieldsWeight_eq, map_recordFrom,
      paramsWeight, paramsWeight]
    omega

end Ty

/-- The loop that closes a table: types to look at, types looked at, and the table. -/
structure Closing where
  pending : List Ty
  seen : List Ty
  table : TypeTable

namespace Closing

variable {c c' : Closing} {roots : List Ty} {t : TypeTable}

/-- One turn of the loop, unless nothing is pending. -/
def turn? (c : Closing) : Option Closing :=
  match c.pending with
  | [] => none
  | u :: pending =>
    if c.seen.contains u then some { c with pending }
    else some ⟨u.parts.reverse ++ pending, u :: c.seen, (c.table.intern u).2⟩

/-- The loop takes a turn. -/
def Turns (c c' : Closing) : Prop := c.turn? = some c'

theorem Turns.lighter (h : c.Turns c') : Ty.paramsWeight c'.pending < Ty.paramsWeight c.pending := by
  unfold Turns turn? at h
  split at h
  · cases h
  · rename_i u pending heq
    have hparts := u.weight_parts
    rw [heq, Ty.paramsWeight]
    split at h
    · cases h
      change Ty.paramsWeight pending < _
      omega
    · cases h
      rw [Ty.paramsWeight_append, Ty.paramsWeight_reverse]
      omega

/-- The loop cannot go on for ever, wherever it starts. -/
theorem wellFounded_turns : WellFounded fun c' c : Closing => c.Turns c' :=
  Subrelation.wf (fun h => Turns.lighter h) (measure fun c : Closing => Ty.paramsWeight c.pending).wf

/-- What the types looked at call for has been looked at, or is pending; and these are what the table
has gained. -/
structure Inv (roots : List Ty) (t : TypeTable) (c : Closing) : Prop where
  seen : ∀ u ∈ c.seen, u ∈ c.table.types ∧ ∀ v ∈ u.parts, v ∈ c.seen ∨ v ∈ c.pending
  roots : ∀ u ∈ roots, u ∈ c.seen ∨ u ∈ c.pending
  gained : ∀ u ∈ c.table.types, u ∈ t.types ∨ u ∈ c.seen

theorem Inv.turn (h : Inv roots t c) (hturn : c.Turns c') : Inv roots t c' := by
  obtain ⟨hseen, hroots, hgained⟩ := h
  unfold Turns turn? at hturn
  split at hturn
  · cases hturn
  · rename_i u pending heq
    rw [heq] at hseen hroots
    split at hturn
    · rename_i hcontains
      have hu : u ∈ c.seen := contains_iff_mem.1 hcontains
      cases hturn
      constructor <;> grind
    · cases hturn
      have hnew := c.table.mem_intern u
      have hold : ∀ v ∈ c.table.types, v ∈ (c.table.intern u).2.types := fun v => TypeTable.mem_intern_of_mem
      have hback : ∀ v ∈ (c.table.intern u).2.types, v ∈ c.table.types ∨ v = u :=
        fun v => TypeTable.mem_of_mem_intern
      constructor <;> grind

theorem Inv.turns (h : Inv roots t c) (hrun : ReflTransGen Turns c c') : Inv roots t c' := by
  induction hrun with
  | refl => exact h
  | tail _ hturn ih => exact ih.turn hturn

end Closing

namespace TypeTable

variable {t : TypeTable}

/-- A table that holds what its types call for. -/
def Closed (t : TypeTable) : Prop := ∀ u ∈ t.types, ∀ v ∈ u.parts, v ∈ t.types

theorem le_closeFrom : t.Le (t.closeFrom fuel pending seen) := by
  induction fuel generalizing pending seen t with
  | zero => exact .refl t
  | succ fuel ih =>
    cases pending with
    | nil => exact .refl t
    | cons u pending =>
      rw [closeFrom]
      split
      · exact ih
      · exact (le_intern t u).trans ih

/-- The weight of the worklist is a bound on the turns that the loop takes. -/
theorem closeFrom_turns (hfuel : Ty.paramsWeight pending < fuel) : ∃ seen',
    ReflTransGen Closing.Turns ⟨pending, seen, t⟩ ⟨[], seen', t.closeFrom fuel pending seen⟩ := by
  induction fuel generalizing pending seen t with
  | zero => cases hfuel
  | succ fuel ih =>
    cases pending with
    | nil => exact ⟨seen, .refl⟩
    | cons u pending =>
      rw [closeFrom]
      split
      all_goals
        rename_i hcontains
        have hturn := Closing.turn?.eq_def ⟨u :: pending, seen, t⟩
        simp only [hcontains, if_true, if_false, Bool.false_eq_true] at hturn
        obtain ⟨seen', hrun⟩ := ih (Nat.lt_of_lt_of_le (Closing.Turns.lighter hturn) (Nat.le_of_lt_succ hfuel))
        exact ⟨seen', .head hturn hrun⟩

theorem closeFrom_of_closed (h : t.Closed)
    (hpending : ∀ u ∈ pending, u ∈ t.types) : t.closeFrom fuel pending seen = t := by
  induction fuel generalizing pending seen with
  | zero => rfl
  | succ fuel ih =>
    cases pending with
    | nil => rfl
    | cons u pending =>
      obtain ⟨hu, hpending⟩ := forall_mem_cons.1 hpending
      rw [closeFrom]
      split
      · exact ih hpending
      · rw [intern_of_mem hu]
        refine ih fun v hv => ?_
        rcases mem_append.1 hv with hv | hv
        · exact h u hu v (mem_reverse.1 hv)
        · exact hpending v hv

end TypeTable

namespace Ir.Module

theorem le_closeTypes (m : Module) : m.types.Le m.closeTypes.types := TypeTable.le_closeFrom

theorem closeTypes_turns (m : Module) : ∃ seen,
    ReflTransGen Closing.Turns ⟨m.layoutRoots.reverse, [], m.types⟩ ⟨[], seen, m.closeTypes.types⟩ :=
  TypeTable.closeFrom_turns (Nat.lt_succ_self _)

theorem closeTypes_closed (m : Module) :
    m.closeTypes.types.Closed ∧ ∀ u ∈ m.layoutRoots, u ∈ m.closeTypes.types.types := by
  obtain ⟨seen, hrun⟩ := m.closeTypes_turns
  have hstart : Closing.Inv m.layoutRoots m.types ⟨m.layoutRoots.reverse, [], m.types⟩ :=
    ⟨nofun, fun _ hu => .inr (mem_reverse.2 hu), fun _ hu => .inl hu⟩
  obtain ⟨hseen, hroots, hgained⟩ := hstart.turns hrun
  have hroots : ∀ u ∈ m.layoutRoots, u ∈ seen := fun u hu => (hroots u hu).resolve_right (nomatch ·)
  refine ⟨fun u hu v hv => ?_, fun u hu => (hseen u (hroots u hu)).1⟩
  have hu : u ∈ seen := (hgained u hu).elim
    (fun hold => hroots u (mem_append_left _ (Array.mem_toList_iff.2 hold))) id
  exact (hseen v (((hseen u hu).2 v hv).resolve_right (nomatch ·))).1

/-- The loop that closes the table of a module ends, with the closed table. Every id leads to the type that it
led to before, and with a type the table holds its elements, fields, target, parameters, result and argument
record; it holds the argument records of the functions of the module. -/
theorem closeTypes_complete : (WellFounded fun c' c : Closing => c.Turns c') ∧ ∀ m : Module,
    (∃ seen, ReflTransGen Closing.Turns ⟨m.layoutRoots.reverse, [], m.types⟩ ⟨[], seen, m.closeTypes.types⟩) ∧
    (∀ id t, m.types.get? id = some t → m.closeTypes.types.get? id = some t) ∧
    (∀ t ∈ m.closeTypes.types.types, match t with
      | .prim .. => True
      | .vector e _ | .tensor e _ | .complex e => e ∈ m.closeTypes.types.types
      | .struct fs => ∀ d ∈ fs, d.2 ∈ m.closeTypes.types.types
      | .function ps r => (∀ p ∈ ps, p ∈ m.closeTypes.types.types) ∧ r ∈ m.closeTypes.types.types ∧
        .record ps ∈ m.closeTypes.types.types
      | .reference target _ => target ∈ m.closeTypes.types.types) ∧
    ∀ f ∈ m.functions, ∀ ps, m.paramTys? f = some ps → .record ps ∈ m.closeTypes.types.types := by
  refine ⟨Closing.wellFounded_turns, fun m => ⟨m.closeTypes_turns, m.le_closeTypes.get?, fun t ht => ?_, ?_⟩⟩
  · have hparts := m.closeTypes_closed.1 t ht
    cases t with
    | prim => trivial
    | vector | tensor | complex | reference => exact hparts _ mem_cons_self
    | struct fs => exact fun d hd => hparts _ (mem_map_of_mem hd)
    | function ps r =>
      refine ⟨fun p hp => hparts p ?_, hparts r ?_, hparts _ mem_cons_self⟩
      · exact mem_cons_of_mem _ (mem_append_left _ hp)
      · exact mem_cons_of_mem _ (mem_append_right _ mem_cons_self)
  · intro f hf ps hps
    exact m.closeTypes_closed.2 _ (mem_append_right _ (mem_map_of_mem (mem_filterMap.2 ⟨f, hf, hps⟩)))

/-- A module that knows a function type only. -/
def callbackType : Module := { types := ⟨#[.function [.i64] .bool]⟩ }

theorem closeTypes_complete_callback :
    .record [.i64] ∈ callbackType.closeTypes.types.types ∧ .bool ∈ callbackType.closeTypes.types.types := by
  obtain ⟨-, hkept, hparts, -⟩ := closeTypes_complete.2 callbackType
  obtain ⟨-, hret, hrecord⟩ := hparts _ (Array.mem_of_getElem? (hkept ⟨0⟩ _ rfl))
  exact ⟨hrecord, hret⟩

end Ir.Module

end NumericEngine
