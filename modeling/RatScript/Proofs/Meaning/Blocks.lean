import RatScript.Proofs.Meaning.Expression

/-!
Branches and loops: when the parts pass, so does the whole, with each jump where it has to go. The
loops are taken pass by pass.
-/

namespace RatScript

open Stateful Machine

variable {p : Program} {P : Array (Array Value)} {z : Setting} {m₀ : Machine} {q : Spot}
  {least limit line line' offset : Nat} {upper : List Content} {f : Function}

/-- One of two branches, between a jump over the first and a jump over the second. -/
theorem branch_passes {a : Content} {d e : Nat} {yes no : Walk Unit}
    (hjump : p.Lies q.function f line offset [.jumpIf false (d+4), .pop])
    (hskip : p.Lies q.function f line' (offset+4+d) [.jump (e+1), .pop])
    (hfit : d+4 < 0x10000) (hfit' : e+1 < 0x10000)
    (hyes : Yields (At p P z m₀ q least (offset+4) upper) yes
      (fun _ => At p P z m₀ q least (offset+4+d) upper) (Breaks p m₀ limit))
    (hno : Yields (At p P z m₀ q least (offset+8+d) upper) no
      (fun _ => At p P z m₀ q least (offset+8+d+e) upper) (Breaks p m₀ limit)) :
    Yields (At p P z m₀ q least offset (upper++[a])) (if a.isTruthy then yes else no)
      (fun _ => At p P z m₀ q least (offset+8+d+e) upper) (Breaks p m₀ limit) := by
  cases htruth : a.isTruthy with
  | true =>
    refine hyes.mono ?_ ?_ fun _ _ h => h
    · intro σ hσ
      have h := hσ.jumpIf hjump.cons.1 hfit
      rw [htruth, if_neg (by simp)] at h
      exact At.pop hjump rfl h
    · intro _ σ hσ
      have h := hσ.jump hskip.cons.1 hfit'
      rwa [show offset+4+d+3+(e+1) = offset+8+d+e by omega] at h
  | false =>
    refine hno.mono ?_ (fun _ _ h => h) fun _ _ h => h
    intro σ hσ
    have h := hσ.jumpIf hjump.cons.1 hfit
    rw [htruth, if_pos rfl, show offset+3+(d+4) = offset+4+d+3 by omega] at h
    have h := At.pop hskip rfl h
    rwa [show offset+4+d+(Directive.jump (e+1)).width+1 = offset+8+d by
      simp only [Directive.width_jump]; omega] at h

/-- Passes as long as the test is true, each behind a way back. -/
theorem loop_passes {t b : Nat} {test : Walk Content} {body : Walk Unit}
    (hjump : p.Lies q.function f line (offset+t) [.jumpIf false (b+4), .pop])
    (hback : p.Lies q.function f line' (offset+t+4+b) [.back (t+b+7), .pop])
    (hfit : t+b+7 < 0x10000)
    (htest : ∀ least, Yields (At p P z m₀ q least offset upper) test
      (fun a => At p P z m₀ q least (offset+t) (upper++[a])) (Breaks p m₀ limit))
    (hbody : ∀ least, Yields (At p P z m₀ q least (offset+t+4) upper) body
      (fun _ => At p P z m₀ q least (offset+t+4+b) upper) (Breaks p m₀ limit))
    (passes : Nat) : ∀ least, limit ≤ least+passes →
      Yields (At p P z m₀ q least offset upper)
        (Walk.loop (do let c : Content ← test; return c.isTruthy) body passes)
        (fun _ => At p P z m₀ q least (offset+t+8+b) upper) (Breaks p m₀ limit) := by
  induction passes with
  | zero =>
    intro least hleast
    apply Yields.throw
    rintro σ ⟨n, m, hn, hrun, hstatements, hm⟩
    exact ⟨n, m, by omega, hrun, hstatements, hm.2.toPresents⟩
  | succ passes ih =>
    intro least hleast
    rw [Walk.loop, bind_assoc]
    refine Yields.bind (htest least) fun a => ?_
    rw [pure_bind]
    cases htruth : a.isTruthy with
    | true =>
      -- the test is dropped, and the way back costs the turn that the pass is counted by
      refine Yields.bind (Q := fun _ => At p P z m₀ q (least+1) offset upper)
        ((hbody least).mono ?_ ?_ fun _ _ h => h) fun _ => ?_
      · intro σ hσ
        have h := hσ.jumpIf hjump.cons.1 (by omega)
        rw [htruth, if_neg (by simp)] at h
        exact At.pop hjump rfl h
      · intro _ σ hσ
        have h := hσ.back hback.cons.1 hfit (by omega)
        rwa [show offset+t+4+b+3-(t+b+7) = offset by omega] at h
      · exact (ih (least+1) (by omega)).mono (fun _ h => h) (fun _ _ h => h.fewer) fun _ _ h => h
    | false =>
      apply Yields.pure
      intro σ hσ
      have h := hσ.jumpIf hjump.cons.1 (by omega)
      rw [htruth, if_pos rfl, show offset+t+3+(b+4) = offset+t+4+b+3 by omega] at h
      have h := At.pop hback rfl h
      rwa [show offset+t+4+b+(Directive.back (t+b+7)).width+1 = offset+t+8+b by
        simp only [Directive.width_back]; omega] at h

/-- As many passes as the counter says. -/
theorem counted_passes {b : Nat} {body : Walk Unit}
    (hlast : p.Lies q.function f line (offset+b) [.endRepeat, .back (b+4)]) (hfit : b+4 < 0x10000)
    (hbody : ∀ (x : Number) (least : Nat),
      Yields (At p P z m₀ q least offset (upper++[Content.number x])) body
        (fun _ => At p P z m₀ q least (offset+b) (upper++[Content.number x])) (Breaks p m₀ limit))
    (passes : Nat) : ∀ (x : Number) (least : Nat), x.Counts (passes+1) → passes+1 ≤ 2^24 →
      Yields (At p P z m₀ q least offset (upper++[Content.number x])) (Walk.iterate body (passes+1))
        (fun _ => At p P z m₀ q least (offset+b+4) upper) (Breaks p m₀ limit) := by
  obtain ⟨hend, hback⟩ := hlast.cons
  have hdrops : f.chunk.drops (offset+b) = false :=
    hend.drops_eq_false (by simp [Directive.endRepeat, Directive.plain])
  induction passes with
  | zero =>
    intro x least hx hle
    refine Yields.bind (hbody x least) fun _ => Yields.pure ?_
    intro σ hσ
    exact (moves hend hdrops (fun _ _ hm => Exec.execute_endRepeat hm hx hle) hσ).fewer
  | succ passes ih =>
    intro x least hx hle
    have hless : (x.sub (.ofInt 1)).Counts (passes+1) := by
      have h := hx.sub_one hle
      rwa [if_neg (Nat.succ_ne_zero passes)] at h
    refine Yields.bind (hbody x least) fun _ => ?_
    refine (ih (x.sub (.ofInt 1)) least hless (by omega)).mono ?_ (fun _ _ h => h) fun _ _ h => h
    intro σ hσ
    have h := moves hend hdrops (fun _ _ hm => Exec.execute_endRepeat hm hx hle) hσ
    have h := At.back hback hfit (by simp only [Directive.width_endRepeat]; omega) h.fewer
    rw [Directive.width_endRepeat, show offset+b+1+3-(b+4) = offset by omega] at h
    exact h.fewer

/-- A count that is no whole number from 1 on fails; any other is how many passes there are. -/
theorem repeat_passes {b : Nat} {a : Content} {body : Walk Unit}
    (hcount : p.Lies q.function f line offset [.plain .repeat_ rfl, .newline])
    (hlast : p.Lies q.function f line' (offset+2+b) [.endRepeat, .back (b+4)]) (hfit : b+4 < 0x10000)
    (hbody : ∀ (x : Number) (least : Nat),
      Yields (At p P z m₀ q least (offset+2) (upper++[Content.number x])) body
        (fun _ => At p P z m₀ q least (offset+2+b) (upper++[Content.number x])) (Breaks p m₀ limit)) :
    Yields (At p P z m₀ q least offset (upper++[a]))
      (do Walk.iterate body (← Walk.lift line a.passes))
      (fun _ => At p P z m₀ q least (offset+2+b+4) upper) (Breaks p m₀ limit) := by
  obtain ⟨hcount, hnewline⟩ := hcount.cons
  have hfirst : Yields (At p P z m₀ q least offset (upper++[a])) (Walk.lift line a.passes)
      (fun _ => At p P z m₀ q least (offset+1) (upper++[a])) (Breaks p m₀ limit) :=
    passes hcount (hcount.drops_eq_false (by simp [Directive.plain])) fun _ _ hm =>
      (Exec.execute_repeat hm).mono fun _ _ _ _ h => h.2
  refine Yields.bind (hfirst.with_fact (φ := fun n => a.passes = .ok n) ?_) fun n => ?_
  · intro σ n σ' h
    cases hpasses : a.passes <;> rw [hpasses] at h <;> cases h
    rfl
  · rintro σ ⟨hσ, hpasses⟩
    obtain ⟨hpos, hle, x, rfl, hx⟩ := Content.counts_of_passes hpasses
    obtain ⟨n, rfl⟩ := Nat.exists_eq_add_one_of_ne_zero hpos.ne'
    exact counted_passes hlast hfit hbody n x least hx hle σ (At.newline hnewline hσ)

end RatScript
