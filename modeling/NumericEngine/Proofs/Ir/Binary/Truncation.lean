import NumericEngine.Proofs.Ir.Binary.Canonical

/-!
# Modules that break off

A reader that is given only the front of its input runs out of bytes, or it
answers what it answers on all of it and leaves what is missing unread. So what
is left of a module that was cut short is refused for its missing end, wherever
the cut is, and for no other reason.
-/

namespace NumericEngine.Ir

/-- A cursor with more bytes behind its own. -/
def Cursor.append (c : Cursor) (more : List UInt8) : Cursor := { c with rest := c.rest ++ more }

namespace Reader

variable {α : Type} {rd : Reader α} {c : Cursor}

/-- The end of the input was met. -/
def RanOut (x : Except DecodeError α) : Prop := ∃ offset, x = .error (.unexpectedEnd offset)

/-- The first reader, on the front of an input, runs out of bytes or does what the second one does on
all of it. -/
class Steady (rd rd' : Reader α) : Prop where
  cut : ∀ c more, RanOut (rd c) ∨ rd' (c.append more) = (rd c).map (Prod.map id (·.append more))

/-! ## Sequencing -/

theorem bind_apply : (rd >>= f) c = rd c >>= fun p => f p.1 p.2 := rfl

theorem get_apply : (get : Reader Cursor) c = .ok (c, c) := rfl

theorem RanOut.bind (h : RanOut (rd c)) : RanOut ((rd >>= f) c) := by
  obtain ⟨offset, h⟩ := h
  exact ⟨offset, by rw [bind_apply, h]; rfl⟩

theorem RanOut.after (hrd : rd c = .ok (x, c')) (h : RanOut (f x c')) : RanOut ((rd >>= f) c) := by
  rw [bind_apply, hrd]
  exact h

instance Steady.pure (x : α) : Steady (Pure.pure x) (Pure.pure x) := ⟨fun _ _ => .inr rfl⟩

instance Steady.throw (e : DecodeError) : Steady (throw e : Reader α) (throw e) := ⟨fun _ _ => .inr rfl⟩

instance steady_invalidTag (what : Tagged) (tag : UInt8) :
    Steady (invalidTag what tag : Reader α) (invalidTag what tag) := .throw _

instance steady_malformed (cause : Malformation) : Steady (malformed cause : Reader α) (malformed cause) :=
  .throw _

instance Steady.bind {f f' : α → Reader β} [h : Steady rd rd'] [g : ∀ x, Steady (f x) (f' x)] :
    Steady (rd >>= f) (rd' >>= f') := by
  refine ⟨fun c more => ?_⟩
  rcases h.cut c more with hout | hrd
  · exact .inl hout.bind
  · rw [bind_apply, bind_apply, hrd]
    cases hc : rd c with
    | error e => exact .inr rfl
    | ok p => exact (g p.1).cut p.2 more

/-- Where the whole is read, the front is read to the same answer or too short. -/
theorem Steady.front (rd : Reader α) [h : Steady rd rd'] (hrd : rd' (c.append more) = .ok (x, c')) :
    RanOut (rd c) ∨ ∃ c₁, rd c = .ok (x, c₁) ∧ c' = c₁.append more := by
  refine (h.cut c more).imp_right fun heq => ?_
  rw [heq] at hrd
  cases hc : rd c with
  | error e =>
    rw [hc] at hrd
    cases hrd
  | ok p =>
    rw [hc] at hrd
    cases hrd
    exact ⟨p.2, rfl, rfl⟩

/-! ## Bytes, lengths and collections -/

theorem atLeast_append (more : List UInt8) (h : atLeast n c.rest = true) :
    atLeast n (c.append more).rest = true := by
  rw [atLeast_iff] at h ⊢
  exact h.trans (by simp [Cursor.append])

instance steady_take (n : Nat) : Steady (take n) (take n) := by
  refine ⟨fun c more => ?_⟩
  unfold take
  split
  · rename_i h
    have hle := (atLeast_iff _ _).1 h
    rw [if_pos (atLeast_append more h)]
    simp [Except.map, Cursor.append, List.take_append_of_le_length hle, List.drop_append_of_le_length hle]
  · exact .inl ⟨_, rfl⟩

instance steady_u8 : Steady u8 u8 := by
  refine ⟨fun ⟨rest, offset⟩ more => ?_⟩
  cases rest with
  | nil => exact .inl ⟨offset, rfl⟩
  | cons b rest => exact .inr rfl

instance steady_word (n : Nat) : Steady (word n) (word n) := Steady.bind

instance steady_u32 : Steady u32 u32 := Steady.bind

instance steady_u64 : Steady u64 u64 := steady_word 8

instance steady_bool : Steady bool bool :=
  .bind (g := fun tag => by split <;> infer_instance)

/-- A length beyond the front of an input may be one that all of it has. -/
instance steady_count : Steady count count := by
  refine .bind (g := fun w => ⟨fun c more => ?_⟩)
  simp only [bind_apply, get_apply, Except.ok_bind]
  by_cases h : atLeast w.toNat c.rest
  · rw [if_pos h, if_pos (atLeast_append more h)]
    exact .inr rfl
  · rw [if_neg h]
    exact .inl ⟨_, rfl⟩

instance steady_text : Steady text text :=
  .bind (g := fun n => .bind (g := fun bs => by split <;> infer_instance))

theorem steady_times [Steady item item'] (n : Nat) : Steady (times item n) (times item' n) := by
  induction n with
  | zero => exact .pure []
  | succ n ih => exact .bind

instance steady_seq {item item' : Reader α} [Steady item item'] : Steady (seq item) (seq item') :=
  .bind (g := steady_times)

/-! ## Types and values -/

instance steady_choice (what : Tagged) (members : List α) : Steady (choice what members) (choice what members) :=
  .bind (g := fun tag => by split <;> infer_instance)

instance steady_primKind : Steady primKind primKind := steady_choice ..

instance steady_dim : Steady dim dim :=
  .bind (g := fun tag => by split <;> infer_instance)

/-- Types are read to any greater depth alike, for a depth that is used up has met the end. -/
theorem steady_type (h : d ≤ d') : Steady (type d) (type d') := by
  induction d generalizing d' with
  | zero => exact ⟨fun c _ => .inl ⟨c.offset, rfl⟩⟩
  | succ d ih =>
    obtain ⟨d', rfl⟩ : ∃ e, d' = e + 1 := ⟨d' - 1, by omega⟩
    have := ih (Nat.le_of_succ_le_succ h)
    refine .bind (g := fun tag => ?_)
    split
    · refine .bind (g := fun k => .bind (g := fun width => ?_))
      dsimp only
      split <;> infer_instance
    all_goals infer_instance

instance steady_func : Steady func func := Steady.bind

theorem steady_payload (t : Ty) (field field' : Reader Value) [Steady field field'] :
    Steady (payload t field) (payload t field') :=
  .bind (g := fun tag => by split <;> infer_instance)

theorem steady_value (h : d ≤ d') : Steady (value d) (value d') := by
  induction d generalizing d' with
  | zero => exact ⟨fun c _ => .inl ⟨c.offset, rfl⟩⟩
  | succ d ih =>
    obtain ⟨d', rfl⟩ : ∃ e, d' = e + 1 := ⟨d' - 1, by omega⟩
    have := ih (Nat.le_of_succ_le_succ h)
    have := steady_type h
    refine .bind (g := fun t => ?_)
    have := steady_payload t (value d) (value d')
    refine .bind (g := fun v => ?_)
    split <;> infer_instance

/-! ## Functions -/

instance steady_reg : Steady reg reg := Steady.bind

instance steady_regs : Steady regs regs := steady_seq

instance steady_block : Steady block block := Steady.bind

instance steady_typeId : Steady typeId typeId := Steady.bind

instance steady_kind : Steady kind kind :=
  .bind (g := fun tag => by split <;> infer_instance)

instance steady_rhs (tag : UInt8) : Steady (rhs tag) (rhs tag) := by
  unfold rhs arithOp cmpOp unaryOp complexOp complexPart
  split <;> infer_instance

instance steady_instr : Steady instr instr := by
  refine .bind (g := fun tag => ?_)
  split
  · infer_instance
  · split <;> infer_instance

instance steady_terminator : Steady terminator terminator :=
  .bind (g := fun tag => by split <;> infer_instance)

instance steady_basicBlock : Steady basicBlock basicBlock := Steady.bind

instance steady_function : Steady function function := Steady.bind

theorem steady_functionsFrom (index n : Nat) : Steady (functionsFrom index n) (functionsFrom index n) := by
  induction n generalizing index with
  | zero => exact .pure []
  | succ n ih =>
    have := ih (index + 1)
    refine .bind (g := fun f => ?_)
    split <;> infer_instance

instance steady_functions : Steady functions functions := .bind (g := steady_functionsFrom 0)

/-- All parts of a module are steady, so a front that is read to its end is the whole. -/
theorem module_front (h : d ≤ d') (hmore : more ≠ [])
    (hm : Reader.module d' (c.append more) = .ok (m, c')) : RanOut (Reader.module d c) := by
  obtain ⟨c₁, c₂, ts, c₃, vs, c₄, fs, hmagic, hversion, hts, hvs, hfs, hempty, -⟩ := module_ok.1 hm
  have := steady_type h
  have := steady_value h
  unfold Reader.module
  obtain hout | ⟨c₁, hread, rfl⟩ := Steady.front (take 4) hmagic
  · exact hout.bind
  refine .after hread ?_
  rw [if_neg (not_not.2 rfl)]
  obtain hout | ⟨c₂, hread, rfl⟩ := Steady.front (word 2) hversion
  · exact hout.bind
  refine .after hread ?_
  rw [if_neg (by decide)]
  obtain hout | ⟨c₃, hread, rfl⟩ := Steady.front (seq (type d)) hts
  · exact hout.bind
  refine .after hread ?_
  obtain hout | ⟨c₄, hread, rfl⟩ := Steady.front (seq (value d)) hvs
  · exact hout.bind
  refine .after hread ?_
  obtain hout | ⟨c₅, -, rfl⟩ := Steady.front functions hfs
  · exact hout.bind
  · exact absurd (List.append_eq_nil_iff.1 hempty).2 hmore

end Reader

namespace Module

open Reader

/-- A module that breaks off before its end is refused for its missing end. -/
theorem truncated_ran_out {m : Module} (h : decode m.encode = .ok m) {bs : List UInt8}
    (hfront : bs <+: m.encode) (hstrict : bs ≠ m.encode) :
    ∃ offset, decode bs = .error (.unexpectedEnd offset) := by
  obtain ⟨more, hmore⟩ := hfront
  have hne : more ≠ [] := fun hnil => hstrict (by simpa [hnil] using hmore)
  obtain ⟨⟨m', c'⟩, hread, -⟩ := Except.bind_eq_ok.1 h
  rw [← hmore] at hread
  have hdepth : bs.length + 1 ≤ (bs ++ more).length + 1 := by simp
  obtain ⟨offset, hout⟩ := module_front (c := { rest := bs }) hdepth hne hread
  exact ⟨offset, by rw [decode, StateT.run, hout]; rfl⟩

/-- Cut within the name of its function. -/
theorem truncated_ran_out_identity :
    decode identity.encode = .ok identity ∧ identity.encode.take 30 ≠ identity.encode ∧
      ∃ offset, decode (identity.encode.take 30) = .error (.unexpectedEnd offset) := by
  have h : decode identity.encode = .ok identity := by decide +kernel
  have hstrict : identity.encode.take 30 ≠ identity.encode := by decide +kernel
  exact ⟨h, hstrict, truncated_ran_out h (List.take_prefix 30 _) hstrict⟩

end Module

end NumericEngine.Ir
