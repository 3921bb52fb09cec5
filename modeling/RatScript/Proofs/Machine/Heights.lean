import RatScript.Proofs.Machine.Reload
import RatScript.Proofs.Machine.Turn

/-!
Runs of verified programs on a new machine. While calls enter functions of the arity that
verification charged for them, the heights of verification are those of the machine.
-/

namespace RatScript.Machine

variable {p : Program} {z : Setting} {pools : Array (Array Value)} {m : Machine}

/-- Turn after turn the heights hold. -/
theorem runFor_upholds (hz : z.Loads p pools) (hverify : p.verify = .ok ()) (turns : Nat)
    (hm : m.Obeys z p pools)
    (hcharged : ∀ k < turns, ∀ m', m.runFor p k = (.running, m') → m'.Charged p) :
    Upholds z p pools (m.runFor p turns) := by
  induction turns generalizing m with
  | zero => exact hm
  | succ turns ih =>
    have hturn := advance_upholds hz hverify hm (hcharged 0 (by omega) m rfl)
    unfold runFor
    split
    · next m' ha =>
      rw [ha] at hturn
      refine ih hturn ?_
      intro k hk m'' hrun
      exact hcharged (k+1) (by omega) m'' (by simp only [runFor, ha, hrun])
    · exact hturn

theorem interpret_running {start m' : Machine} {turns : Nat} (hload : Exec.load p start = .ok () m)
    (hrun : m.runFor p turns = (.running, m')) :
    start.interpret p turns = (.running, m') := by
  simp only [interpret, hload, hrun]

/-- A verified script without parameters starts as its heights say. -/
theorem fits_start (hverify : p.verify = .ok ())
    (hscript : ∀ f, p.function? 0 = some f → f.arity = 0) : p.Fits 0 [⟨0, 0, 0⟩] := by
  obtain ⟨⟨script, hzero, _⟩, _⟩ := Program.verify_eq_ok hverify
  have hentry := Program.arrives_entry hverify hzero
  rw [hscript script hzero] at hentry
  unfold Program.Arrives at hentry
  refine ⟨rfl, rfl, ?_⟩
  split at hentry
  · next hend => exact .inr ⟨script, hzero, hend⟩
  · exact .inl hentry

/-- Calls a runnable that gives back its argument. -/
def calling : Program :=
  ⟨#[⟨"<script>", 0, #[], ⟨#[55, 0, 0, 0, 23, 1, 2, 2, 56, 1, 6],
      #[.runnable 1, .text "f", .text "rat"]⟩, none, 0⟩,
    ⟨"f", 1, #["x"], ⟨#[25, 0, 1], #[]⟩, some 0, 0⟩]⟩

theorem calling_verifies : calling.verify = .ok () := by cbv

theorem calling_charged :
    ∀ k < 5, ((new {} quiet).interpret calling k).2.Charged calling := by
  decide +kernel

theorem calling_inside : ((new {} quiet).interpret calling 5).1 = .running ∧
    ((new {} quiet).interpret calling 5).2.frames = [⟨1, 2, 0⟩, ⟨0, 10, 0⟩] := by
  decide +kernel

end RatScript.Machine
