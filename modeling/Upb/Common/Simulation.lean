import Mathlib.Order.Defs.PartialOrder
import Upb.Common.Prog

/-!
# Simulations between programs on two kinds of state

One program text runs on two kinds of state. While both runs go well their states are related and
their values agree. The left run may be lazy: where the right run fails at once with a lax error,
the left one may run on `ahead`, doomed but not failed yet. The right run may be cut short: after it
has come `past` its own end, nothing is said about the left one. A free error of the right run says
nothing about the left one either.

What a program needs of the states, and what it leaves behind, is a level. The ghost of a simulation
is what stays fixed during a program.
-/

namespace Upb.Common

open Prog

/-- The relations of a simulation. -/
structure Simulation (ε σ₁ σ₂ Level : Type) [Preorder Level] where
  Ghost : Type
  /-- Both runs go well. -/
  rel : Ghost → Level → σ₁ → σ₂ → Prop
  /-- The left run is doomed. -/
  ahead : Ghost → Level → σ₁ → Prop
  /-- The right run has met its end. -/
  past : Ghost → Level → σ₂ → Prop
  /-- Errors that the left run may still miss. -/
  lax : ε → Prop
  /-- Errors with which a doomed run may end. -/
  allowed : ε → Prop
  /-- Errors of the right run that say nothing about the left one. -/
  free : ε → Prop
  rel_anti : ∀ {g l l' s₁ s₂}, l ≤ l' → rel g l' s₁ s₂ → rel g l s₁ s₂
  ahead_anti : ∀ {g l l' s₁}, l ≤ l' → ahead g l' s₁ → ahead g l s₁
  past_anti : ∀ {g l l' s₂}, l ≤ l' → past g l' s₂ → past g l s₂
  past_free : ∀ {g l s₂}, past g l s₂ → ∀ e, free e

namespace Simulation

variable {ε σ₁ σ₂ Level : Type} [Preorder Level] (S : Simulation ε σ₁ σ₂ Level)
variable {α₁ α₂ β₁ β₂ γ₁ γ₂ : Type}

/-- The outcome of a doomed run. -/
def AheadOut (R : α₁ → α₂ → Prop) (g : S.Ghost) (lvl : α₂ → Level) :
    Except ε (α₁ × σ₁) → Prop
  | .ok (a₁, s₁) => ∃ a₂, R a₁ a₂ ∧ S.ahead g (lvl a₂) s₁
  | .error e => S.allowed e

/-- The outcome of a run that has met its end. -/
def PastOut (R : α₁ → α₂ → Prop) (g : S.Ghost) (lvl : α₂ → Level) :
    Except ε (α₂ × σ₂) → Prop
  | .ok (a₂, s₂) => (∃ a₁, R a₁ a₂) ∧ S.past g (lvl a₂) s₂
  | .error _ => True

/-- The outcomes of two runs that start well. -/
def Out (R : α₁ → α₂ → Prop) (g : S.Ghost) (lvl : α₂ → Level) (o₁ : Except ε (α₁ × σ₁)) :
    Except ε (α₂ × σ₂) → Prop
  | .ok (a₂, s₂) =>
    (∃ a₁ s₁, o₁ = .ok (a₁, s₁) ∧ R a₁ a₂ ∧ S.rel g (lvl a₂) s₁ s₂) ∨
      ((∃ a₁, R a₁ a₂) ∧ S.past g (lvl a₂) s₂)
  | .error e => o₁ = .error e ∨ (S.lax e ∧ S.AheadOut R g lvl o₁) ∨ S.free e

/-- `x` simulates `y` from the level `pre` on, with values related by `R`, and leaves the level that
`lvl` gives for the value. -/
structure Triple (R : α₁ → α₂ → Prop) (pre : Level) (x : Prog ε σ₁ α₁) (y : Prog ε σ₂ α₂)
    (lvl : α₂ → Level) : Prop where
  rel : ∀ g s₁ s₂, S.rel g pre s₁ s₂ → S.Out R g lvl (x s₁) (y s₂)
  ahead : ∀ g s₁, S.ahead g pre s₁ → S.AheadOut R g lvl (x s₁)
  past : ∀ g s₂, S.past g pre s₂ → S.PastOut R g lvl (y s₂)

variable {S} {R : α₁ → α₂ → Prop} {R' : β₁ → β₂ → Prop} {pre : Level} {lvl : α₂ → Level}
  {lvl' : β₂ → Level}

theorem Triple.pure {a₁ : α₁} {a₂ : α₂} (h : R a₁ a₂) (hl : lvl a₂ ≤ pre) :
    S.Triple R pre (Pure.pure a₁) (Pure.pure a₂) lvl where
  rel _ s₁ _ hs := .inl ⟨a₁, s₁, rfl, h, S.rel_anti hl hs⟩
  ahead _ _ hs := ⟨a₂, h, S.ahead_anti hl hs⟩
  past _ _ hs := ⟨⟨a₁, h⟩, S.past_anti hl hs⟩

theorem Triple.throw {e : ε} (h : ∀ g s, S.ahead g pre s → S.allowed e) :
    S.Triple R pre (throw e) (throw e) lvl where
  rel _ _ _ _ := .inl rfl
  ahead g s hs := h g s hs
  past _ _ _ := trivial

theorem AheadOut.bind {x : Prog ε σ₁ α₁} {f : α₁ → Prog ε σ₁ β₁} {g : S.Ghost} {s₁ : σ₁}
    (hx : S.AheadOut R g lvl (x s₁))
    (hf : ∀ a₁ a₂, R a₁ a₂ → ∀ s, S.ahead g (lvl a₂) s → S.AheadOut R' g lvl' (f a₁ s)) :
    S.AheadOut R' g lvl' ((x >>= f) s₁) := by
  rw [bind_apply]
  cases h : x s₁ with
  | error e => rw [h] at hx; exact hx
  | ok p =>
    rw [h] at hx
    obtain ⟨a₂, hR, ha⟩ := hx
    exact hf p.1 a₂ hR p.2 ha

/-- Simulations compose along sequences. -/
theorem Triple.bind {x : Prog ε σ₁ α₁} {y : Prog ε σ₂ α₂} {f : α₁ → Prog ε σ₁ β₁}
    {k : α₂ → Prog ε σ₂ β₂} (hx : S.Triple R pre x y lvl)
    (hf : ∀ a₁ a₂, R a₁ a₂ → S.Triple R' (lvl a₂) (f a₁) (k a₂) lvl') :
    S.Triple R' pre (x >>= f) (y >>= k) lvl' where
  rel g s₁ s₂ hs := by
    have hout := hx.rel g s₁ s₂ hs
    rw [bind_apply y]
    cases hy : y s₂ with
    | error e =>
      rw [hy] at hout
      rcases hout with hx' | ⟨hlax, ha⟩ | hfree
      · exact .inl (bind_of_error hx')
      · exact .inr (.inl ⟨hlax, ha.bind fun a₁ a₂ hR => (hf a₁ a₂ hR).ahead g⟩)
      · exact .inr (.inr hfree)
    | ok p =>
      rw [hy] at hout
      rcases hout with ⟨a₁, s₁', hx', hR, hrel⟩ | ⟨⟨a₁, hR⟩, hpast⟩
      · rw [bind_of_ok hx']
        exact (hf a₁ p.1 hR).rel g s₁' p.2 hrel
      · have hp := (hf a₁ p.1 hR).past g p.2 hpast
        change S.Out R' g lvl' _ (k p.1 p.2)
        cases hk : k p.1 p.2 with
        | error e => exact .inr (.inr (S.past_free hpast e))
        | ok q => rw [hk] at hp; exact .inr hp
  ahead g s₁ hs := (hx.ahead g s₁ hs).bind fun a₁ a₂ hR => (hf a₁ a₂ hR).ahead g
  past g s₂ hs := by
    have hp := hx.past g s₂ hs
    rw [bind_apply]
    cases hy : y s₂ with
    | error e => trivial
    | ok p =>
      rw [hy] at hp
      obtain ⟨⟨a₁, hR⟩, hpast⟩ := hp
      exact (hf a₁ p.1 hR).past g p.2 hpast

/-- A program may start at a higher level, leave a lower one, and relate its values less closely. -/
theorem Triple.conseq {x : Prog ε σ₁ α₁} {y : Prog ε σ₂ α₂} {pre' : Level} {lvl₂ : α₂ → Level}
    {R₂ : α₁ → α₂ → Prop} (h : S.Triple R pre x y lvl) (hpre : pre ≤ pre')
    (hR : ∀ a₁ a₂, R a₁ a₂ → R₂ a₁ a₂) (hlvl : ∀ a, lvl₂ a ≤ lvl a) :
    S.Triple R₂ pre' x y lvl₂ where
  rel g s₁ s₂ hs := by
    have hout := h.rel g s₁ s₂ (S.rel_anti hpre hs)
    cases hy : y s₂ with
    | error e =>
      rw [hy] at hout
      refine hout.imp_right (Or.imp_left fun ⟨hlax, ha⟩ => ⟨hlax, ?_⟩)
      cases hx : x s₁ with
      | error e => rw [hx] at ha; exact ha
      | ok p =>
        rw [hx] at ha
        obtain ⟨a₂, hr, ha⟩ := ha
        exact ⟨a₂, hR _ _ hr, S.ahead_anti (hlvl a₂) ha⟩
    | ok p =>
      rw [hy] at hout
      rcases hout with ⟨a₁, s₁', hx', hr, hrel⟩ | ⟨⟨a₁, hr⟩, hpast⟩
      · exact .inl ⟨a₁, s₁', hx', hR _ _ hr, S.rel_anti (hlvl _) hrel⟩
      · exact .inr ⟨⟨a₁, hR _ _ hr⟩, S.past_anti (hlvl _) hpast⟩
  ahead g s₁ hs := by
    have ha := h.ahead g s₁ (S.ahead_anti hpre hs)
    cases hx : x s₁ with
    | error e => rw [hx] at ha; exact ha
    | ok p =>
      rw [hx] at ha
      obtain ⟨a₂, hr, ha⟩ := ha
      exact ⟨a₂, hR _ _ hr, S.ahead_anti (hlvl a₂) ha⟩
  past g s₂ hs := by
    have hp := h.past g s₂ (S.past_anti hpre hs)
    cases hy : y s₂ with
    | error e => trivial
    | ok p =>
      rw [hy] at hp
      obtain ⟨⟨a₁, hr⟩, hpast⟩ := hp
      exact ⟨⟨a₁, hR _ _ hr⟩, S.past_anti (hlvl _) hpast⟩

/-- A program may start at a higher level and leave a lower one. -/
theorem Triple.mono {x : Prog ε σ₁ α₁} {y : Prog ε σ₂ α₂} {pre' : Level} {lvl₂ : α₂ → Level}
    (h : S.Triple R pre x y lvl) (hpre : pre ≤ pre') (hlvl : ∀ a, lvl₂ a ≤ lvl a) :
    S.Triple R pre' x y lvl₂ :=
  h.conseq hpre (fun _ _ hr => hr) hlvl

/-- Two runs that leave a loop with related results, or go on with related states. -/
def SumRel (RB : β₁ → β₂ → Prop) (RC : γ₁ → γ₂ → Prop) : β₁ ⊕ γ₁ → β₂ ⊕ γ₂ → Prop
  | .inl b₁, .inl b₂ => RB b₁ b₂
  | .inr c₁, .inr c₂ => RC c₁ c₂
  | _, _ => False

theorem SumRel.of_eq {β γ : Type} {r₁ r₂ : β ⊕ γ} (h : r₁ = r₂) : SumRel Eq Eq r₁ r₂ := by
  subst h
  cases r₁ <;> exact rfl

/-- Two related runs have both gone on or both left the loop. -/
theorem SumRel.cases {RB : β₁ → β₂ → Prop} {RC : γ₁ → γ₂ → Prop} {r₁ : β₁ ⊕ γ₁} {r₂ : β₂ ⊕ γ₂}
    (h : SumRel RB RC r₁ r₂) :
    (∃ b₁ b₂, r₁ = .inl b₁ ∧ r₂ = .inl b₂ ∧ RB b₁ b₂) ∨
      ∃ c₁ c₂, r₁ = .inr c₁ ∧ r₂ = .inr c₂ ∧ RC c₁ c₂ := by
  rcases r₁ with b₁ | c₁ <;> rcases r₂ with b₂ | c₂
  · exact .inl ⟨b₁, b₂, rfl, rfl, h⟩
  · exact h.elim
  · exact h.elim
  · exact .inr ⟨c₁, c₂, rfl, rfl, h⟩

section Loop

variable (RB : β₁ → β₂ → Prop) {RC : γ₁ → γ₂ → Prop} {done₁ : Prog ε σ₁ Bool}
  {done₂ : Prog ε σ₂ Bool} {out : ε} {step₁ : β₁ → Prog ε σ₁ (β₁ ⊕ γ₁)}
  {step₂ : β₂ → Prog ε σ₂ (β₂ ⊕ γ₂)} {finish₁ : β₁ → Prog ε σ₁ γ₁}
  {finish₂ : β₂ → Prog ε σ₂ γ₂} {head body stop : Level} {exit : γ₂ → Level}

/-- The level after a round. -/
def roundLevel (head : Level) (exit : γ₂ → Level) : β₂ ⊕ γ₂ → Level
  | .inl _ => head
  | .inr c => exit c

/-- A doomed loop stays doomed. -/
private theorem aheadOut_loop
    (hdone : S.Triple Eq head done₁ done₂ fun d => if d then stop else body)
    (hout : ∀ g s, S.ahead g body s → S.allowed out)
    (hfinish : ∀ b₁ b₂, RB b₁ b₂ → S.Triple RC stop (finish₁ b₁) (finish₂ b₂) exit)
    (hstep : ∀ b₁ b₂, RB b₁ b₂ →
      S.Triple (SumRel RB RC) body (step₁ b₁) (step₂ b₂) (roundLevel head exit))
    (g : S.Ghost) {n : ℕ} {b₁ : β₁} {b₂ : β₂} (hb : RB b₁ b₂) (s₁ : σ₁) (hs : S.ahead g head s₁) :
    S.AheadOut RC g exit (Prog.loop done₁ out step₁ finish₁ n b₁ s₁) := by
  induction n generalizing b₁ b₂ s₁ with
  | zero =>
    rw [Prog.loop]
    refine (hdone.ahead g s₁ hs).bind fun d _ hd s hs => ?_
    subst hd
    cases d with
    | true => exact (hfinish b₁ b₂ hb).ahead g s hs
    | false => exact hout g s hs
  | succ n ih =>
    rw [Prog.loop]
    refine (hdone.ahead g s₁ hs).bind fun d _ hd s hs => ?_
    subst hd
    cases d with
    | true => exact (hfinish b₁ b₂ hb).ahead g s hs
    | false =>
      refine ((hstep b₁ b₂ hb).ahead g s hs).bind fun r₁ r₂ hr s hs => ?_
      obtain ⟨b₁, b₂, rfl, rfl, hr⟩ | ⟨c₁, c₂, rfl, rfl, hr⟩ := hr.cases
      · exact ih hr s hs
      · exact ⟨c₂, hr, hs⟩

/-- Loops simulate each other round by round. The right loop may have fewer rounds if running out of
them is a free error. -/
theorem Triple.loop (hdone : S.Triple Eq head done₁ done₂ fun d => if d then stop else body)
    (hout : ∀ g s, S.ahead g body s → S.allowed out)
    (hfinish : ∀ b₁ b₂, RB b₁ b₂ → S.Triple RC stop (finish₁ b₁) (finish₂ b₂) exit)
    (hstep : ∀ b₁ b₂, RB b₁ b₂ →
      S.Triple (SumRel RB RC) body (step₁ b₁) (step₂ b₂) (roundLevel head exit))
    {n₁ n₂ : ℕ} (hn : n₁ = n₂ ∨ (n₂ ≤ n₁ ∧ S.free out)) {b₁ : β₁} {b₂ : β₂} (hb : RB b₁ b₂) :
    S.Triple RC head (Prog.loop done₁ out step₁ finish₁ n₁ b₁)
      (Prog.loop done₂ out step₂ finish₂ n₂ b₂) exit := by
  induction n₂ generalizing n₁ b₁ b₂ with
  | zero =>
    cases n₁ with
    | zero =>
      rw [Prog.loop, Prog.loop]
      refine hdone.bind fun d _ hd => ?_
      subst hd
      cases d with
      | true => exact hfinish b₁ b₂ hb
      | false => exact .throw hout
    | succ n₁ =>
      -- the left loop has rounds left: the right one fails with a free error
      have hfree : S.free out := by
        rcases hn with hn | hn
        · omega
        · exact hn.2
      rw [Prog.loop, Prog.loop]
      refine hdone.bind fun d _ hd => ?_
      subst hd
      cases d with
      | true => exact hfinish b₁ b₂ hb
      | false =>
        refine ⟨fun _ _ _ _ => .inr (.inr hfree), fun g s₁ hs => ?_, fun _ _ _ => trivial⟩
        refine ((hstep b₁ b₂ hb).ahead g s₁ hs).bind fun r₁ r₂ hr s hs => ?_
        obtain ⟨b₁, b₂, rfl, rfl, hr⟩ | ⟨c₁, c₂, rfl, rfl, hr⟩ := hr.cases
        · exact aheadOut_loop RB hdone hout hfinish hstep g hr s hs
        · exact ⟨c₂, hr, hs⟩
  | succ n₂ ih =>
    obtain ⟨n₁, rfl⟩ : ∃ k, n₁ = k + 1 := ⟨n₁ - 1, by omega⟩
    rw [Prog.loop, Prog.loop]
    refine hdone.bind fun d _ hd => ?_
    subst hd
    cases d with
    | true => exact hfinish b₁ b₂ hb
    | false =>
      refine (hstep b₁ b₂ hb).bind fun r₁ r₂ hr => ?_
      obtain ⟨b₁, b₂, rfl, rfl, hr⟩ | ⟨c₁, c₂, rfl, rfl, hr⟩ := hr.cases
      · exact ih (hn.imp (by omega) fun h => ⟨by omega, h.2⟩) hr
      · exact .pure hr le_rfl

/-- Loops that are not done simulate each other if the states of their first rounds are related. -/
theorem Triple.loop_of_not_done
    (hdone : S.Triple Eq head done₁ done₂ fun d => if d then stop else body)
    (hout : ∀ g s, S.ahead g body s → S.allowed out)
    (hfinish : ∀ b₁ b₂, RB b₁ b₂ → S.Triple RC stop (finish₁ b₁) (finish₂ b₂) exit)
    (hstep : ∀ b₁ b₂, RB b₁ b₂ →
      S.Triple (SumRel RB RC) body (step₁ b₁) (step₂ b₂) (roundLevel head exit))
    {n₁ n₂ : ℕ} (hn : n₂ ≤ n₁ ∧ S.free out) {b₁ : β₁} {b₂ : β₂} (hb : RB b₁ b₂) {g : S.Ghost}
    {s₁ s₁' : σ₁} {s₂ s₂' : σ₂} (hd₁ : done₁ s₁ = .ok (false, s₁')) (hd₂ : done₂ s₂ = .ok (false, s₂'))
    (hrel : S.rel g body s₁' s₂') :
    S.Out RC g exit (Prog.loop done₁ out step₁ finish₁ n₁ b₁ s₁)
      (Prog.loop done₂ out step₂ finish₂ n₂ b₂ s₂) := by
  cases n₂ with
  | zero =>
    rw [Prog.loop, bind_of_ok hd₂]
    exact .inr (.inr hn.2)
  | succ n₂ =>
    obtain ⟨n₁, rfl⟩ : ∃ k, n₁ = k + 1 := ⟨n₁ - 1, by omega⟩
    rw [Prog.loop_of_not_done hd₁, Prog.loop_of_not_done hd₂]
    refine ((hstep b₁ b₂ hb).bind fun r₁ r₂ hr => ?_).rel g s₁' s₂' hrel
    obtain ⟨b₁, b₂, rfl, rfl, hr⟩ | ⟨c₁, c₂, rfl, rfl, hr⟩ := hr.cases
    · exact Triple.loop RB hdone hout hfinish hstep (.inr ⟨by omega, hn.2⟩) hr
    · exact .pure hr le_rfl

end Loop

end Simulation

end Upb.Common
