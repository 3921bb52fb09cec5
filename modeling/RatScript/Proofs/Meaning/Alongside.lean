import RatScript.Proofs.Meaning.DeedPath

/-!
Runs beside each other. The deeds of a script may stand among others, in another program on another
machine: as long as both runs are at the same one of them, with the same values, they go on alike.
-/

namespace RatScript

open Machine

/-! Turns. -/

/-- Fails, if it does, on a line. -/
def Walk.onLine {α : Type} (line : Nat) (w : Walk α) : Walk α := fun σ =>
  match w σ with
  | .error (.failed f) σ' => .error (.failed {f with line := line}) σ'
  | result => result

namespace Exec

theorem Follows.onLine {α β : Type} {line : Nat} {σ : Store} {w : Walk β} {m : Machine} {x : Exec α}
    {Q : β → Store → α → Machine → Prop} (h : Follows line σ w m x Q) (line' : Nat) :
    Follows line' σ (w.onLine line') m x Q := by
  unfold Follows at h ⊢
  unfold Walk.onLine
  split at h
  · next heq =>
    rw [heq]
    exact h
  · next heq =>
    obtain ⟨m', hx, _, hm'⟩ := h
    rw [heq]
    exact ⟨m', hx, rfl, hm'⟩
  · exact h.elim

theorem lasts_lands {p : Program} {P : Array (Array Value)} {z : Setting} {e : Deed} {ip : Nat}
    (r : Bool × List Content) : Lasts p P z fun σ m => e.Lands p P z ip r σ () m :=
  Spot.script.lasts_shown _ _

end Exec

namespace Program.Enacts

variable {p : Program} {f : Function} {es before after : List Deed} {e : Deed}
  {P : Array (Array Value)} {z : Setting} {σ : Store} {st : List Content} {m : Machine}

/-- A turn does the next deed. -/
theorem turns (h : p.Enacts f (before++e :: after))
    (hm : Spot.script.Shown p P z (Deed.size before) st.reverse σ m) (hneeds : e.needs ≤ st.length)
    (hback : ∀ n, e = .back n → n ≤ Deed.size before+3) :
    Exec.Turns p m σ ((e.act z.config.stackCapacity st).onLine (1+Deed.total before))
      fun r σ' m' => e.Lands p P z (Deed.size before) r σ' () m' := by
  obtain ⟨d, hsays, hholds, hline⟩ := h.lies
  refine Exec.turns_of_follows hm.2.frames h.first hholds Exec.lasts_lands ?_
  change Exec.Follows (p.sourceLine 0 _) _ _ _ _ _
  rw [hline]
  exact (Exec.execute_follows hsays (hm.goto _) h.first hholds hneeds hback).onLine _

/-- At the end of its deeds the script is finished. -/
theorem finishes (h : p.Enacts f es) {ip : Nat} {upper : List Content}
    (hm : Spot.script.Shown p P z ip upper σ m) (hend : ip = Deed.size es) :
    m.advance p = (.finished, m) := by
  have hframes : m.frames = [⟨0, ip, 0⟩] := hm.2.frames
  unfold Machine.advance
  simp only [hframes, h.first, h.size_eq, hend, le_refl, if_true, h.isScript]

end Program.Enacts

/-! Runs. -/

section
variable {p q : Program} {f g : Function} {es front back : List Deed} {P Q : Array (Array Value)}
  {y z : Setting} {σ : Store} {st : List Content} {ip : Nat} {m₁ m₂ : Machine}

/-- Two runs between turns: that of a script, and that of one with more deeds in front of it and
behind it. They have the same values, and stand at the same deed. -/
structure Alongside (p : Program) (P : Array (Array Value)) (y : Setting) (f : Function) (q : Program)
    (Q : Array (Array Value)) (z : Setting) (front : List Deed) (ip : Nat) (st : List Content)
    (σ : Store) (m₁ m₂ : Machine) : Prop where
  reaches : (p.surveyOf f).Reaches (ip, st.length)
  first : Spot.script.Shown p P y ip st.reverse σ m₁
  second : Spot.script.Shown q Q z (Deed.size front+ip) st.reverse σ m₂

/-- A turn of the script is one of the other, which fails as many lines later as it has in front. -/
theorem Alongside.advance (hp : p.Enacts f es) (hq : q.Enacts g (front++es++back))
    (hroom : z.config.stackCapacity = y.config.stackCapacity)
    (h : Alongside p P y f q Q z front ip st σ m₁ m₂) (hne : ip ≠ Deed.size es) :
    (∃ ip' st' σ' m₁' m₂', m₁.advance p = (.running, m₁') ∧ m₂.advance q = (.running, m₂') ∧
      Alongside p P y f q Q z front ip' st' σ' m₁' m₂') ∨
    (∃ fault line σ' m₁' m₂', m₁.advance p = (.failed ⟨fault, line⟩, m₁') ∧
      m₂.advance q = (.failed ⟨fault, line+Deed.total front⟩, m₂') ∧ m₁'.Presents σ' ∧
        m₂'.Presents σ') := by
  obtain ⟨before, e, after, rfl, rfl, hneeds, hback, honward⟩ := hp.onward h.reaches hne
  have hturn := hp.turns h.first hneeds hback
  have hq' : q.Enacts g ((front++before)++e :: (after++back)) := by simpa using hq
  have hsecond := h.second
  rw [← Deed.size_append] at hsecond
  have hturn' := hq'.turns hsecond hneeds fun n hn => by
    have hle := hback n hn
    rw [Deed.size_append]
    omega
  rw [hroom] at hturn'
  unfold Exec.Turns Walk.onLine at hturn hturn'
  have hreturns := Deed.act_returns hneeds y.config.stackCapacity σ
  cases hact : e.act y.config.stackCapacity st σ with
  | ok r σ' =>
    rw [hact] at hturn hturn'
    obtain ⟨m₁', hadvance, hm₁⟩ := hturn
    obtain ⟨m₂', hadvance', hm₂⟩ := hturn'
    refine .inl ⟨_, r.2, σ', m₁', m₂', hadvance, hadvance', ?_, hm₁, ?_⟩
    · rw [hreturns r σ' hact]
      exact honward r.1
    · rw [← Deed.goes_add hback, ← Deed.size_append]
      exact hm₂
  | error e σ' =>
    rw [hact] at hturn hturn'
    cases e with
    | failed fault =>
      obtain ⟨m₁', hadvance, hm₁⟩ := hturn
      obtain ⟨m₂', hadvance', hm₂⟩ := hturn'
      refine .inr ⟨_, _, σ', m₁', m₂', hadvance, ?_, hm₁, hm₂⟩
      rw [hadvance', Deed.total_append]
      simp only [Prod.mk.injEq, Outcome.failed.injEq, Failure.mk.injEq, true_and, and_true]
      omega
    | tired => exact hturn.elim

/-- What the run of a script comes to is what the other run comes to, unless it is at the end of the
deeds by then. -/
theorem Alongside.runFor (hp : p.Enacts f es) (hq : q.Enacts g (front++es++back))
    (hroom : z.config.stackCapacity = y.config.stackCapacity)
    (h : Alongside p P y f q Q z front ip st σ m₁ m₂) (n : Nat) :
    (∃ ip' st' σ' m₁' m₂', m₁.runFor p n = (.running, m₁') ∧ m₂.runFor q n = (.running, m₂') ∧
      Alongside p P y f q Q z front ip' st' σ' m₁' m₂') ∨
    (∃ fault line σ' m₁' m₂', m₁.runFor p n = (.failed ⟨fault, line⟩, m₁') ∧
      m₂.runFor q n = (.failed ⟨fault, line+Deed.total front⟩, m₂') ∧ m₁'.Presents σ' ∧
        m₂'.Presents σ') ∨
    (∃ k < n, ∃ σ' m₁' m₂', m₁.runFor p n = (.finished, m₁') ∧ m₂.runFor q k = (.running, m₂') ∧
      Alongside p P y f q Q z front (Deed.size es) [] σ' m₁' m₂') := by
  induction n generalizing ip st σ m₁ m₂ with
  | zero => exact .inl ⟨ip, st, σ, m₁, m₂, rfl, rfl, h⟩
  | succ n ih =>
    by_cases hend : ip = Deed.size es
    · subst hend
      obtain rfl := List.length_eq_zero_iff.mp (hp.height_eq_zero h.reaches)
      refine .inr (.inr ⟨0, n.succ_pos, σ, m₁, m₂, ?_, rfl, h⟩)
      rw [Machine.runFor, hp.finishes h.first rfl]
    obtain ⟨ip', st', σ', m₁', m₂', hadvance, hadvance', h'⟩ | ⟨fault, line, σ', m₁', m₂', hadvance,
      hadvance', hpresents⟩ := h.advance hp hq hroom hend
    · simp only [Machine.runFor, hadvance, hadvance']
      obtain hrun | hfail | ⟨k, hk, hfinish⟩ := ih h'
      · exact .inl hrun
      · exact .inr (.inl hfail)
      · obtain ⟨σ'', m₁'', m₂'', hrun, hrun', h''⟩ := hfinish
        refine .inr (.inr ⟨k+1, Nat.succ_lt_succ hk, σ'', m₁'', m₂'', hrun, ?_, h''⟩)
        rw [Machine.runFor, hadvance']
        exact hrun'
    · refine .inr (.inl ⟨fault, line, σ', m₁', m₂', ?_, ?_, hpresents⟩)
      · rw [Machine.runFor, hadvance]
      · rw [Machine.runFor, hadvance']

end
end RatScript
