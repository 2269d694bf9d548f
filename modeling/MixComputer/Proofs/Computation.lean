/-!
Computations that may fail. A chain of them ends with the first failure, and so does a computation
for every element of a list.
-/
namespace MixComputer

section Results

variable {ε α β : Type}

/-- A chain of two computations ends well if both do. -/
theorem bind_eq_ok_iff (x : Except ε α) (f : α → Except ε β) (b : β) :
    x >>= f = .ok b ↔ ∃ a, x = .ok a ∧ f a = .ok b := by
  cases x with
  | error e => simp [bind, Except.bind]
  | ok a => simp [bind, Except.bind]

variable {f : α → Except ε β} {g : α → β}

theorem mapM_eq_ok {as : List α} (h : ∀ a ∈ as, f a = .ok (g a)) :
    as.mapM f = .ok (as.map g) := by
  induction as with
  | nil => rfl
  | cons a as ih =>
    rw [List.mapM_cons, h a List.mem_cons_self, ih fun b hb => h b (List.mem_cons_of_mem a hb)]
    rfl

/-- The first failure decides. -/
theorem mapM_eq_error {before after : List α} {a : α} {error : ε}
    (hbefore : ∀ b ∈ before, f b = .ok (g b)) (h : f a = .error error) :
    (before ++ a :: after).mapM f = .error error := by
  induction before with
  | nil =>
    rw [List.nil_append, List.mapM_cons, h]
    rfl
  | cons b before ih =>
    rw [List.cons_append, List.mapM_cons, hbefore b List.mem_cons_self,
      ih fun b' hb' => hbefore b' (List.mem_cons_of_mem b hb')]
    rfl

end Results

/-- If a computation ends with an error, the error is like this. -/
def FailsWith {ε α : Type} (P : ε → Prop) (r : Except ε α) : Prop :=
  ∀ error, r = .error error → P error

section Failures

variable {ε α β : Type} {P Q : ε → Prop}

theorem failsWith_ok (a : α) : FailsWith P (.ok a : Except ε α) := fun _ h => by cases h

theorem failsWith_error {error : ε} (h : P error) :
    FailsWith P (.error error : Except ε α) := fun other heq => by
  cases heq
  exact h

theorem failsWith_ite {p : Prop} [Decidable p] (a : α) {error : ε} (h : P error) :
    FailsWith P (if p then .ok a else .error error : Except ε α) := by
  split
  · exact failsWith_ok a
  · exact failsWith_error h

theorem FailsWith.bind {x : Except ε α} {f : α → Except ε β} (hx : FailsWith P x)
    (hf : ∀ a, FailsWith P (f a)) : FailsWith P (x >>= f) := by
  cases x with
  | ok a => exact hf a
  | error error => exact failsWith_error (hx error rfl)

theorem FailsWith.mono {r : Except ε α} (h : FailsWith P r)
    (hPQ : ∀ error, P error → Q error) : FailsWith Q r :=
  fun error herror => hPQ error (h error herror)

theorem failsWith_mapM {f : α → Except ε β} (h : ∀ a, FailsWith P (f a)) (as : List α) :
    FailsWith P (as.mapM f) := by
  induction as with
  | nil => exact failsWith_ok []
  | cons a as ih =>
    rw [List.mapM_cons]
    exact (h a).bind fun b => ih.bind fun bs => failsWith_ok (b :: bs)

end Failures

end MixComputer
