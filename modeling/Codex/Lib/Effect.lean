import Mathlib.Tactic.Common

/-!
# Computations over a state that can fail

`Eff σ ε α` reads and changes a state and ends in a value or an error; unlike a
transaction, it keeps the state it had reached when it failed. `Post Q E` is the
pair of postconditions, one for each way to end, and each combinator has one rule.
-/

namespace Effect

variable {σ ε δ α β : Type}

def Eff (σ ε α : Type) : Type := σ → Except ε α × σ

namespace Eff

def bind (m : Eff σ ε α) (f : α → Eff σ ε β) : Eff σ ε β := fun s =>
  match m s with
  | (.ok a, s') => f a s'
  | (.error e, s') => (.error e, s')

instance : Monad (Eff σ ε) where
  pure a := fun s => (.ok a, s)
  bind := bind

def fail (e : ε) : Eff σ ε α := fun s => (.error e, s)

def modify (f : σ → σ) : Eff σ ε Unit := fun s => (.ok (), f s)

def gets (f : σ → α) : Eff σ ε α := fun s => (.ok (f s), s)

/-- Hands the result to the caller, error or not. -/
def attempt (m : Eff σ δ α) : Eff σ ε (Except δ α) := fun s => (.ok (m s).1, (m s).2)

def mapError (f : δ → ε) (m : Eff σ δ α) : Eff σ ε α := fun s => ((m s).1.mapError f, (m s).2)

end Eff

/-- The outcome meets `Q` if it is a value and `E` if it is an error. -/
def Post (Q : α → σ → Prop) (E : ε → σ → Prop) : Except ε α × σ → Prop
  | (.ok a, s) => Q a s
  | (.error e, s) => E e s

section Rules

variable {Q : α → σ → Prop} {E : ε → σ → Prop} {s : σ}

variable {o : Except ε α × σ} {f : β → Eff σ ε α} {a : α} {e : ε} {m : Eff σ ε β}

theorem Post.mono {Q' : α → σ → Prop} {E' : ε → σ → Prop} (h : Post Q E o)
    (hQ : ∀ a s', Q a s' → Q' a s') (hE : ∀ e s', E e s' → E' e s') : Post Q' E' o := by
  obtain ⟨_ | _, s'⟩ := o
  · exact hE _ _ h
  · exact hQ _ _ h

/-- A run that succeeded. -/
theorem Post.of_ok (h : Post Q E o) (hOk : o.1 = .ok a) : Q a o.2 := by
  obtain ⟨e | b, s'⟩ := o
  · cases hOk
  · cases hOk
    exact h

/-- A run that failed. -/
theorem Post.of_error (h : Post Q E o) (hError : o.1 = .error e) : E e o.2 := by
  obtain ⟨e' | b, s'⟩ := o
  · cases hError
    exact h
  · cases hError

/-- One postcondition for both ways to end. -/
theorem Post.both {R : σ → Prop} (h : Post (fun _ => R) (fun _ => R) o) : R o.2 := by
  obtain ⟨_ | _, s'⟩ := o
  · exact h
  · exact h

/-- What holds of every outcome. -/
theorem post_of_forall (hQ : ∀ a s', Q a s') (hE : ∀ e s', E e s') (o : Except ε α × σ) :
    Post Q E o := by
  obtain ⟨e | a, s'⟩ := o
  · exact hE e s'
  · exact hQ a s'

theorem post_pure (h : Q a s) : Post Q E ((pure a : Eff σ ε α) s) := h

theorem post_fail (h : E e s) : Post Q E ((Eff.fail e : Eff σ ε α) s) := h

theorem post_modify {Q : Unit → σ → Prop} {f : σ → σ} (h : Q () (f s)) :
    Post Q E ((Eff.modify f : Eff σ ε Unit) s) := h

theorem post_gets {f : σ → α} (h : Q (f s) s) : Post Q E ((Eff.gets f : Eff σ ε α) s) := h

theorem post_bind (h : Post (fun b s' => Post Q E (f b s')) E (m s)) : Post Q E ((m >>= f) s) := by
  show Post Q E (Eff.bind m f s)
  unfold Eff.bind
  generalize m s = o at h ⊢
  obtain ⟨_ | _, s'⟩ := o
  · exact h
  · exact h

/-- The rule for a first step whose outcome matters later on. -/
theorem post_bind_of_eq (hOk : ∀ b s', m s = (.ok b, s') → Post Q E (f b s'))
    (hError : ∀ e s', m s = (.error e, s') → E e s') : Post Q E ((m >>= f) s) := by
  apply post_bind
  cases hStep : m s with
  | mk r s' =>
    cases r with
    | ok b => exact hOk b s' hStep
    | error e => exact hError e s' hStep

theorem post_attempt {Q : Except δ α → σ → Prop} {m : Eff σ δ α}
    (h : Post (fun a s' => Q (.ok a) s') (fun e s' => Q (.error e) s') (m s)) :
    Post Q E ((Eff.attempt m : Eff σ ε (Except δ α)) s) := by
  unfold Eff.attempt
  generalize m s = o at h ⊢
  obtain ⟨_ | _, s'⟩ := o
  · exact h
  · exact h

theorem post_mapError {f : δ → ε} {m : Eff σ δ α} (h : Post Q (fun e s' => E (f e) s') (m s)) :
    Post Q E (Eff.mapError f m s) := by
  unfold Eff.mapError
  generalize m s = o at h ⊢
  obtain ⟨_ | _, s'⟩ := o
  · exact h
  · exact h

end Rules

end Effect
