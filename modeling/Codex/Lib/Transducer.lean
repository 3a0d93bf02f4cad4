import Mathlib.Algebra.Group.Defs

/-!
# Machines that are fed in chunks

A machine takes its input in chunks, puts something out for each, and flushes what it
holds back at the end. Outputs add up (an additive monoid, not necessarily commutative).

The chunks should not matter. The way to show it is to say what the machine will have put
out once a given rest of the input has followed (`Foretells`): a push may then only
settle part of what was foretold.
-/

namespace Transducer

variable {σ α ω : Type*}

structure Machine (σ α ω : Type*) where
  push : σ → List α → ω × σ
  finish : σ → ω × σ

variable [AddMonoid ω]

namespace Machine

/-- What a sequence of chunks puts out, and the state after it. -/
def pushAll (m : Machine σ α ω) : σ → List (List α) → ω × σ
  | s, [] => (0, s)
  | s, chunk :: chunks =>
    let (out, s) := m.push s chunk
    let (rest, s) := m.pushAll s chunks
    (out + rest, s)

/-- Everything put out for a sequence of chunks, the flush included. -/
def collect (m : Machine σ α ω) (s : σ) (chunks : List (List α)) : ω :=
  let (out, s) := m.pushAll s chunks
  out + (m.finish s).1

theorem pushAll_append (m : Machine σ α ω) (s : σ) (chunks more : List (List α)) :
    m.pushAll s (chunks ++ more) =
      ((m.pushAll s chunks).1 + (m.pushAll (m.pushAll s chunks).2 more).1,
        (m.pushAll (m.pushAll s chunks).2 more).2) := by
  induction chunks generalizing s with
  | nil => exact Prod.ext (zero_add _).symm rfl
  | cons chunk chunks ih =>
    have hRest := ih (m.push s chunk).2
    have hCons : m.pushAll s (chunk :: chunks ++ more) =
        ((m.push s chunk).1 + (m.pushAll (m.push s chunk).2 (chunks ++ more)).1,
          (m.pushAll (m.push s chunk).2 (chunks ++ more)).2) := rfl
    rw [hCons, hRest]
    exact Prod.ext (add_assoc _ _ _).symm rfl

@[simp] theorem collect_nil (m : Machine σ α ω) (s : σ) : m.collect s [] = (m.finish s).1 :=
  zero_add _

theorem collect_cons (m : Machine σ α ω) (s : σ) (chunk : List α) (chunks : List (List α)) :
    m.collect s (chunk :: chunks) =
      (m.push s chunk).1 + m.collect (m.push s chunk).2 chunks :=
  add_assoc _ _ _

end Machine

/-- `foretold s rest` is everything the machine puts out from `s` on when `rest` is what
still comes, for the states that `valid` holds of. -/
structure Foretells (m : Machine σ α ω) (valid : σ → Prop) (foretold : σ → List α → ω) :
    Prop where
  keeps : ∀ s chunk, valid s → valid (m.push s chunk).2
  push : ∀ s chunk rest, valid s →
    foretold s (chunk ++ rest) = (m.push s chunk).1 + foretold (m.push s chunk).2 rest
  finish : ∀ s, valid s → foretold s [] = (m.finish s).1

variable {m : Machine σ α ω} {valid : σ → Prop} {foretold : σ → List α → ω} {s : σ}

theorem Foretells.collect_eq (h : Foretells m valid foretold) (hs : valid s)
    (chunks : List (List α)) : m.collect s chunks = foretold s chunks.flatten := by
  induction chunks generalizing s with
  | nil => rw [m.collect_nil, List.flatten_nil, h.finish s hs]
  | cons chunk chunks ih =>
    rw [m.collect_cons, ih (h.keeps s chunk hs), List.flatten_cons, h.push s chunk _ hs]

/-! ## Two machines in a row -/

variable {ρ τ β ω₁ ω₂ : Type*} [AddMonoid ω₁] [AddMonoid ω₂]

/-- `m` runs `first` and hands on to `second` what `pass` takes out of the output; `join` is
what the two outputs are put together to. -/
structure Piped (m : Machine ρ α ω) (first : Machine σ α ω₁) (second : Machine τ β ω₂)
    (state : σ → τ → ρ) (pass : ω₁ → List β) (join : ω₁ → ω₂ → ω) : Prop where
  pass_add : ∀ a b, pass (a + b) = pass a ++ pass b
  join_add : ∀ a b c d, join (a + b) (c + d) = join a c + join b d
  push : ∀ s t chunk, m.push (state s t) chunk =
    (join (first.push s chunk).1 (second.push t (pass (first.push s chunk).1)).1,
      state (first.push s chunk).2 (second.push t (pass (first.push s chunk).1)).2)
  finish : ∀ s t, (m.finish (state s t)).1 =
    join (first.finish s).1 (second.collect t [pass (first.finish s).1])

/-- The second machine is fed, in some chunks, all that the first one hands on. -/
theorem Piped.collect_eq {m : Machine ρ α ω} {first : Machine σ α ω₁} {second : Machine τ β ω₂}
    {state : σ → τ → ρ} {pass : ω₁ → List β} {join : ω₁ → ω₂ → ω}
    (h : Piped m first second state pass join) (s : σ) (t : τ) (chunks : List (List α)) :
    ∃ middle : List (List β), middle.flatten = pass (first.collect s chunks) ∧
      m.collect (state s t) chunks = join (first.collect s chunks) (second.collect t middle) := by
  induction chunks generalizing s t with
  | nil =>
    refine ⟨[pass (first.finish s).1], ?_, ?_⟩
    · rw [List.flatten_singleton, first.collect_nil]
    · rw [m.collect_nil, first.collect_nil, h.finish]
  | cons chunk chunks ih =>
    obtain ⟨middle, hFlat, hOut⟩ :=
      ih (first.push s chunk).2 (second.push t (pass (first.push s chunk).1)).2
    refine ⟨pass (first.push s chunk).1 :: middle, ?_, ?_⟩
    · rw [List.flatten_cons, hFlat, first.collect_cons, h.pass_add]
    · rw [m.collect_cons, h.push, hOut, first.collect_cons, second.collect_cons, h.join_add]

end Transducer
