import Mathlib.Data.Nat.Notation

/-!
# Programs with a state and errors

A program reads and changes a state and returns a value or fails. `loop` is the loop of a reader
that asks before each round whether it is done. `Safe` is the rule of pre- and postconditions in
which an error is allowed only if it meets a condition; a loop whose rounds decrease a measure is
safe with as many rounds as the measure.
-/

namespace Upb.Common

/-- A program over the states `σ` that returns a value or fails with an error. -/
abbrev Prog (ε σ α : Type) := StateT σ (Except ε) α

namespace Prog

variable {ε σ α β γ : Type}

/-- Runs `x` and then `f` on its result. -/
theorem bind_apply (x : Prog ε σ α) (f : α → Prog ε σ β) (s : σ) :
    (x >>= f) s = match x s with
      | .ok (a, s') => f a s'
      | .error e => .error e := by
  change Except.bind (x s) _ = _
  cases x s <;> rfl

theorem bind_of_ok {x : Prog ε σ α} {f : α → Prog ε σ β} {s s' : σ} {a : α}
    (h : x s = .ok (a, s')) : (x >>= f) s = f a s' := by
  rw [bind_apply, h]

theorem bind_of_error {x : Prog ε σ α} {f : α → Prog ε σ β} {s : σ} {e : ε}
    (h : x s = .error e) : (x >>= f) s = .error e := by
  rw [bind_apply, h]

/-- A sequence succeeds when both of its parts do. -/
theorem bind_eq_ok {x : Prog ε σ α} {f : α → Prog ε σ β} {s s' : σ} {b : β} :
    (x >>= f) s = .ok (b, s') ↔ ∃ a t, x s = .ok (a, t) ∧ f a t = .ok (b, s') := by
  rw [bind_apply]
  cases h : x s with
  | error e => simp
  | ok p => exact ⟨fun h => ⟨p.1, p.2, rfl, h⟩, fun ⟨a, t, hx, hf⟩ => by cases hx; exact hf⟩

/-- A result that is mapped. -/
theorem map_eq_ok {x : Except ε α} {f : α → β} {b : β} :
    x.map f = .ok b ↔ ∃ a, x = .ok a ∧ f a = b := by
  cases x with
  | error e => exact ⟨nofun, nofun⟩
  | ok a => exact ⟨fun h => ⟨a, rfl, Except.ok.inj h⟩, fun ⟨_, ha, hf⟩ => by cases ha; exact congrArg _ hf⟩

@[simp] theorem pure_apply (a : α) (s : σ) : (pure a : Prog ε σ α) s = .ok (a, s) := rfl

@[simp] theorem throw_apply (e : ε) (s : σ) : (throw e : Prog ε σ α) s = .error e := rfl

/-- `while (!done) step`, followed by `finish`; a round may leave the loop with a result. The loop
fails with `out` when it has used up its rounds and is still not done. -/
def loop (done : Prog ε σ Bool) (out : ε) (step : β → Prog ε σ (β ⊕ γ)) (finish : β → Prog ε σ γ) :
    ℕ → β → Prog ε σ γ
  | 0, b => do
    if ← done then finish b else throw out
  | n + 1, b => do
    if ← done then finish b
    else
      match ← step b with
      | .inl b => loop done out step finish n b
      | .inr c => pure c

section Rounds

variable {done : Prog ε σ Bool} {out : ε} {step : β → Prog ε σ (β ⊕ γ)} {finish : β → Prog ε σ γ}
  {n : ℕ} {b : β} {s s' : σ}

/-- A loop that is done. -/
theorem loop_of_done (hd : done s = .ok (true, s')) :
    loop done out step finish n b s = finish b s' := by
  cases n with
  | zero => exact bind_of_ok hd
  | succ n => exact bind_of_ok hd

/-- A loop that is not done makes a round. -/
theorem loop_of_not_done (hd : done s = .ok (false, s')) :
    loop done out step finish (n + 1) b s = (step b >>= fun r =>
      match r with
      | .inl b => loop done out step finish n b
      | .inr c => pure c) s' := bind_of_ok hd

/-- How a loop that is not done comes to a result. -/
theorem loop_eq_ok {c : γ} {t : σ} (hd : done s = .ok (false, s'))
    (h : loop done out step finish n b s = .ok (c, t)) :
    ∃ k r t', n = k + 1 ∧ step b s' = .ok (r, t') ∧
      ((∃ b', r = .inl b' ∧ loop done out step finish k b' t' = .ok (c, t)) ∨
        (r = .inr c ∧ t' = t)) := by
  cases n with
  | zero =>
    rw [loop, bind_of_ok hd] at h
    cases h
  | succ n =>
    rw [loop_of_not_done hd, bind_eq_ok] at h
    obtain ⟨r, t', hstep, hr⟩ := h
    refine ⟨n, r, t', rfl, hstep, ?_⟩
    cases r with
    | inl b' => exact .inl ⟨b', rfl, hr⟩
    | inr c' =>
      cases hr
      exact .inr ⟨rfl, rfl⟩

end Rounds

/-- From a state that meets `pre`, `x` returns a value and a state that meet `post` or fails with an
error that meets `ok`. -/
def Safe (ok : ε → Prop) (pre : σ → Prop) (x : Prog ε σ α) (post : α → σ → Prop) : Prop :=
  ∀ s, pre s → match x s with
    | .ok (a, s') => post a s'
    | .error e => ok e

variable {ok : ε → Prop} {pre pre' : σ → Prop}

theorem Safe.pure {a : α} {post : α → σ → Prop} (h : ∀ s, pre s → post a s) :
    Safe ok pre (pure a) post := fun s hs => h s hs

theorem Safe.throw {e : ε} {post : α → σ → Prop} (h : ok e) : Safe ok pre (throw e) post :=
  fun _ _ => h

theorem Safe.bind {x : Prog ε σ α} {f : α → Prog ε σ β} {mid : α → σ → Prop}
    {post : β → σ → Prop} (hx : Safe ok pre x mid) (hf : ∀ a, Safe ok (mid a) (f a) post) :
    Safe ok pre (x >>= f) post := by
  intro s hs
  have hx := hx s hs
  rw [bind_apply]
  cases h : x s with
  | error e => rw [h] at hx; exact hx
  | ok p => rw [h] at hx; exact hf p.1 p.2 hx

theorem Safe.conseq {x : Prog ε σ α} {post post' : α → σ → Prop} (hx : Safe ok pre x post)
    (hpre : ∀ s, pre' s → pre s) (hpost : ∀ a s, post a s → post' a s) :
    Safe ok pre' x post' := by
  intro s hs
  have hx := hx s (hpre s hs)
  cases h : x s with
  | error e => rw [h] at hx; exact hx
  | ok p => rw [h] at hx; exact hpost p.1 p.2 hx

/-- A loop whose measure is positive while it is not done, and which every round decreases, is safe
with as many rounds as its measure. -/
theorem Safe.loop {done : Prog ε σ Bool} {out : ε} {step : β → Prog ε σ (β ⊕ γ)}
    {finish : β → Prog ε σ γ} (μ : σ → ℕ) (I : β → Prop) (Q : γ → Prop) {N : ℕ}
    (hdone : ∀ n, Safe ok (fun s => μ s ≤ n) done fun d s => μ s ≤ n ∧ (d = false → 0 < μ s))
    (hfinish : ∀ n b, I b → Safe ok (fun s => μ s ≤ n) (finish b) fun c s => Q c ∧ μ s ≤ n)
    (hstep : ∀ n b, n < N → I b → Safe ok (fun s => μ s ≤ n + 1) (step b) fun r s =>
      match r with
      | .inl b => I b ∧ μ s ≤ n
      | .inr c => Q c ∧ μ s ≤ n) :
    ∀ n k b, I b → n ≤ N → n ≤ k → Safe ok (fun s => μ s ≤ n) (Prog.loop done out step finish k b)
      fun c s => Q c ∧ μ s ≤ n := by
  intro n
  induction n with
  | zero =>
    intro k b hb _ _
    have hloop : ∃ rest, Prog.loop done out step finish k b =
        (do if ← done then finish b else rest) := by
      cases k with
      | zero => exact ⟨_, rfl⟩
      | succ k => exact ⟨_, rfl⟩
    obtain ⟨rest, hloop⟩ := hloop
    rw [hloop]
    refine (hdone 0).bind fun d => ?_
    cases d with
    | true => exact (hfinish 0 b hb).conseq (fun s h => h.1) fun _ _ h => h
    | false => exact fun s hs => absurd (hs.2 rfl) (by omega)
  | succ n ih =>
    intro k b hb hN hk
    obtain ⟨k, rfl⟩ := Nat.exists_eq_add_of_lt (Nat.lt_of_lt_of_le (Nat.succ_pos n) hk)
    simp only [Nat.zero_add] at hk ⊢
    rw [Prog.loop]
    refine (hdone (n + 1)).bind fun d => ?_
    cases d with
    | true => exact (hfinish (n + 1) b hb).conseq (fun s h => h.1) fun _ _ h => h
    | false =>
      refine ((hstep n b hN hb).conseq (fun s h => h.1) fun _ _ h => h).bind fun r => ?_
      cases r with
      | inl b' =>
        intro s hs
        exact (ih k b' hs.1 (by omega) (by omega)).conseq (fun _ h => h)
          (fun _ _ h => ⟨h.1, Nat.le_succ_of_le h.2⟩) s hs.2
      | inr c => exact .pure fun s hs => ⟨hs.1, Nat.le_succ_of_le hs.2⟩

/-- Every value that `x` returns meets `P`. -/
def Returns (x : Prog ε σ α) (P : α → Prop) : Prop :=
  ∀ s a s', x s = .ok (a, s') → P a

theorem Returns.pure {a : α} {P : α → Prop} (h : P a) : Returns (pure a : Prog ε σ α) P := by
  intro s b s' hb
  cases hb
  exact h

theorem Returns.throw {e : ε} {P : α → Prop} : Returns (throw e : Prog ε σ α) P := nofun

theorem returns_true (x : Prog ε σ α) : Returns x fun _ => True := fun _ _ _ _ => trivial

theorem Returns.bind {x : Prog ε σ α} {f : α → Prog ε σ β} {Q : α → Prop} {P : β → Prop}
    (hx : Returns x Q) (hf : ∀ a, Q a → Returns (f a) P) : Returns (x >>= f) P := by
  intro s b s' h
  obtain ⟨a, t, ha, hb⟩ := bind_eq_ok.mp h
  exact hf a (hx s a t ha) t b s' hb

/-- A loop whose rounds keep an invariant. -/
theorem Returns.loop {done : Prog ε σ Bool} {out : ε} {step : β → Prog ε σ (β ⊕ γ)}
    {finish : β → Prog ε σ γ} {I : β → Prop} {Q : γ → Prop}
    (hfinish : ∀ b, I b → Returns (finish b) Q)
    (hstep : ∀ b, I b → Returns (step b) (Sum.elim I Q)) :
    ∀ n b, I b → Returns (Prog.loop done out step finish n b) Q := by
  intro n
  induction n with
  | zero =>
    intro b hb
    refine (returns_true done).bind fun d _ => ?_
    cases d with
    | true => exact hfinish b hb
    | false => exact .throw
  | succ n ih =>
    intro b hb
    refine (returns_true done).bind fun d _ => ?_
    cases d with
    | true => exact hfinish b hb
    | false =>
      refine (hstep b hb).bind fun r hr => ?_
      cases r with
      | inl b' => exact ih b' hr
      | inr c => exact .pure hr

end Prog

end Upb.Common
