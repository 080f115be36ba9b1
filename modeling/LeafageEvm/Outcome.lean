import Mathlib.Init

/-! Computations that may fail: what follows from the success of one that is made of others. -/

namespace LeafageEvm

variable {E A : Type} {x : Except E A} {condition : Prop} {error e : E} {l : List A}
variable {B S : Type} {f : A → Except E B} {b : B} {a : A} {P : S → Prop}

/-- A computation in two steps succeeds through both. -/
theorem bind_eq_ok : x.bind f = .ok b ↔ ∃ a, x = .ok a ∧ f a = .ok b := by
  cases x with
  | error | ok => simp [Except.bind]

theorem bind_ok (h : x.bind f = .ok b) : ∃ a, x = .ok a ∧ f a = .ok b := bind_eq_ok.mp h

/-- What follows a step that went through, where the step itself does not matter. -/
theorem rest_ok (h : x.bind f = .ok b) : ∃ a, f a = .ok b := (bind_ok h).imp fun _ h => h.2

theorem map_eq_ok {f : A → B} : x.map f = .ok b ↔ ∃ a, x = .ok a ∧ f a = b := by
  cases x with
  | error | ok => simp [Except.map]

theorem map_ok {f : A → B} (h : x.map f = .ok b) : ∃ a, x = .ok a ∧ f a = b := map_eq_ok.mp h

theorem exists_ok_of_isOk (h : x.isOk = true) : ∃ a, x = .ok a := by
  cases x with
  | error e => cases h
  | ok a => exact ⟨a, rfl⟩

/-- Succeed if the condition holds. -/
def require {E : Type} (condition : Prop) [Decidable condition] (error : E) : Except E Unit :=
  if condition then .ok () else .error error

theorem require_eq_ok [Decidable condition] {u : Unit} : require condition error = .ok u ↔ condition := by
  rw [require]
  split <;> simp [*]

/-- A check comes before the rest. -/
theorem check_ok [Decidable condition] {f : Unit → Except E A} (h : (require condition error).bind f = .ok a) :
    condition ∧ f () = .ok a := by
  obtain ⟨_, hcond, h⟩ := bind_ok h
  exact ⟨require_eq_ok.mp hcond, h⟩

theorem map_eq_error {f : A → B} : x.map f = .error e ↔ x = .error e := by
  cases x with
  | error | ok => simp [Except.map]

theorem require_eq_error [Decidable condition] : require condition error = .error e ↔ ¬ condition ∧ error = e := by
  rw [require]
  split <;> simp [*]

theorem require_bind_eq_error [Decidable condition] {f : Unit → Except E A} :
    (require condition error).bind f = .error e ↔ ¬ condition ∧ error = e ∨ condition ∧ f () = .error e := by
  rw [require]
  split <;> simp [Except.bind, *]

/-! ### Errors that do not occur -/

theorem bind_ne_error (hx : x ≠ .error e) (hf : ∀ a, x = .ok a → f a ≠ .error e) : x.bind f ≠ .error e := by
  cases x with
  | error e' =>
    intro h
    cases h
    exact hx rfl
  | ok a => exact hf a rfl

theorem map_ne_error {f : A → B} (hx : x ≠ .error e) : x.map f ≠ .error e := fun h => hx (map_eq_error.mp h)

theorem require_ne_error [Decidable condition] (h : error ≠ e := by decide) :
    require condition error ≠ .error e := fun herror => h (require_eq_error.mp herror).2

theorem require_bind_ne_error [Decidable condition] {f : Unit → Except E A} (hrest : f () ≠ .error e)
    (h : error ≠ e := by decide) : (require condition error).bind f ≠ .error e :=
  bind_ne_error (require_ne_error h) fun _ _ => hrest

def orError {E A : Type} (x : Option A) (error : E) : Except E A :=
  match x with
  | some a => .ok a
  | none => .error error

theorem orError_eq_ok {x : Option A} : orError x error = .ok a ↔ x = some a := by
  cases x with
  | none | _ => simp [orError]

/-- What every step of a fold keeps, the fold keeps. -/
theorem foldlM_ok_induction {f : S → A → Except E S} {s s' : S}
    (h : l.foldlM f s = .ok s') (hstart : P s) (hstep : ∀ s a s', f s a = .ok s' → P s → P s') : P s' := by
  induction l generalizing s with
  | nil =>
    cases h
    exact hstart
  | cons a l ih =>
    obtain ⟨next, hnext, hrest⟩ := bind_ok h
    exact ih hrest (hstep s a next hnext hstart)

theorem foldlM_some_induction {f : S → A → Option S} {s s' : S}
    (h : l.foldlM f s = some s') (hstart : P s) (hstep : ∀ s, ∀ a ∈ l, ∀ s', f s a = some s' → P s → P s') : P s' := by
  induction l generalizing s with
  | nil =>
    cases h
    exact hstart
  | cons a l ih =>
    obtain ⟨next, hnext, hrest⟩ := Option.bind_eq_some_iff.mp h
    exact ih hrest (hstep s a (.head _) next hnext hstart) fun s b hb => hstep s b (List.mem_cons_of_mem a hb)

theorem mapM_ok {g : A → B} (h : ∀ a ∈ l, f a = .ok (g a)) : l.mapM f = .ok (l.map g) := by
  induction l with
  | nil => rfl
  | cons a l ih =>
    rw [List.mapM_cons, h a (.head _), ih fun b hb => h b (.tail _ hb)]
    rfl

end LeafageEvm
