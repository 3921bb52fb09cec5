import RatScript.Proofs.Syntax.Code

/-!
What the compiler reads: tokens off the front of those to come. Steps that write leave them alone,
and a step that reads a token has it as the last one read.
-/

set_option synthInstance.maxSize 65536

namespace RatScript

open Stateful

namespace Builder

def upcoming (b : Builder) : List Token := b.rest.map (·.token)

/-- From one state to another these tokens are read. -/
def Reads (b b' : Builder) (ts : List Token) : Prop := b.upcoming = ts++b'.upcoming

theorem Reads.trans {b b' b'' : Builder} {ts us : List Token} (h : b.Reads b' ts)
    (k : b'.Reads b'' us) : b.Reads b'' (ts++us) := by
  rw [Reads, h, k, List.append_assoc]

/-- Nothing is read. -/
structure Pauses (b b' : Builder) : Prop where
  rest : b'.rest = b.rest
  last : b'.last = b.last

instance : Std.Refl Pauses := ⟨fun _ => ⟨rfl, rfl⟩⟩

instance : Trans Pauses Pauses Pauses := ⟨fun h k => ⟨k.1.trans h.1, k.2.trans h.2⟩⟩

theorem Pauses.reads {b b' : Builder} (h : b.Pauses b') : b.Reads b' [] := by
  simp [Reads, upcoming, h.rest]

theorem Pauses.upcoming {b b' : Builder} (h : b.Pauses b') : b'.upcoming = b.upcoming := by
  rw [Builder.upcoming, Builder.upcoming, h.rest]

theorem Pauses.trans {b b' b'' : Builder} (h : b.Pauses b') (k : b'.Pauses b'') : b.Pauses b'' :=
  ⟨k.1.trans h.1, k.2.trans h.2⟩

/-- The next token; past the end there is none but the end of file. -/
theorem token_peek (b : Builder) : b.peek.token = b.upcoming.headD .eof := by
  unfold peek upcoming
  cases b.rest <;> rfl

theorem token_peek_of_upcoming {b : Builder} {t : Token} {ts : List Token}
    (h : b.upcoming = t :: ts) : b.peek.token = t := by
  rw [token_peek, h]
  rfl

end Builder

namespace Compile

open Builder (Pauses)

section
variable {α : Type}

theorem pauses_of_ok {b b' : Builder} {x : Compile α} {a : α} [h : Keeps Pauses x]
    (hx : x b = .ok a b') : b.Pauses b' :=
  h.of_ok hx

instance (bytes : List UInt8) : Keeps Pauses (emitBytes bytes) :=
  Keeps.modify fun _ => ⟨rfl, rfl⟩

instance (add : Chunk → Except PoolFault (Chunk × UInt8)) : Keeps Pauses (enter add) :=
  Keeps.get_bind fun b => by
    cases add b.chunk with
    | ok r => exact ⟨rfl, rfl⟩
    | error fault => exact ⟨rfl, rfl⟩

instance (at_ : Nat) : Keeps Pauses (patchJump at_) := by
  unfold patchJump
  refine Keeps.seq inferInstance fun n => ?_
  split
  · exact Keeps.modify fun _ => ⟨rfl, rfl⟩
  · infer_instance

instance (name : Option String) (t : Located) : Keeps Pauses (addLocal name t) := by
  unfold addLocal
  refine Keeps.seq inferInstance fun b => ?_
  split
  · exact Keeps.modify fun _ => ⟨rfl, rfl⟩
  · infer_instance

end

section
variable {b b' : Builder} {token : Token}

theorem peek_eq_ok {t : Located} (h : peek b = .ok t b') : t = b.peek ∧ b = b' := by
  obtain ⟨_, _, hget, h⟩ := bind_eq_ok.mp h
  obtain ⟨rfl, rfl⟩ := get_eq_ok.mp hget
  obtain ⟨rfl, rfl⟩ := pure_eq_ok.mp h
  exact ⟨rfl, rfl⟩

theorem last_eq_ok {t : Located} (h : last b = .ok t b') : t = b.last ∧ b = b' := by
  obtain ⟨_, _, hget, h⟩ := bind_eq_ok.mp h
  obtain ⟨rfl, rfl⟩ := get_eq_ok.mp hget
  obtain ⟨rfl, rfl⟩ := pure_eq_ok.mp h
  exact ⟨rfl, rfl⟩

theorem check_eq_ok {r : Bool} (h : check token b = .ok r b') :
    r = (b.peek.token == token) ∧ b = b' := by
  obtain ⟨_, _, hpeek, h⟩ := bind_eq_ok.mp h
  obtain ⟨rfl, rfl⟩ := peek_eq_ok hpeek
  obtain ⟨rfl, rfl⟩ := pure_eq_ok.mp h
  exact ⟨rfl, rfl⟩

/-- With a token to come, it is read. -/
theorem advance_reads {a : Unit} {t : Token} {ts : List Token} (hb : b.upcoming = t :: ts)
    (h : advance b = .ok a b') : b'.upcoming = ts ∧ b'.last.token = t := by
  cases modify_eq_ok.mp h
  unfold Builder.upcoming at hb
  cases hr : b.rest with
  | nil => simp [hr] at hb
  | cons l rest =>
    simp only [hr, List.map_cons, List.cons.injEq] at hb
    simpa [Builder.advance, Builder.upcoming, hr] using hb.symm

/-- A token other than the end of file that comes next is one of those to come. -/
theorem upcoming_of_peek (hne : token ≠ .eof) (h : b.peek.token = token) :
    ∃ ts, b.upcoming = token :: ts := by
  rw [Builder.token_peek] at h
  cases hu : b.upcoming with
  | nil =>
    rw [hu] at h
    exact absurd h.symm hne
  | cons t ts =>
    rw [hu] at h
    cases h
    exact ⟨ts, rfl⟩

theorem accept_eq_ok {r : Bool} (hne : token ≠ .eof) (h : accept token b = .ok r b') :
    (r = true ∧ b.Reads b' [token] ∧ b'.last.token = token) ∨
    (r = false ∧ b = b' ∧ b.peek.token ≠ token) := by
  obtain ⟨found, _, hcheck, h⟩ := bind_eq_ok.mp h
  obtain ⟨hfound, rfl⟩ := check_eq_ok hcheck
  cases found with
  | true =>
    obtain ⟨_, _, hadvance, h⟩ := bind_eq_ok.mp h
    obtain ⟨rfl, rfl⟩ := pure_eq_ok.mp h
    obtain ⟨ts, hts⟩ := upcoming_of_peek hne (eq_of_beq hfound.symm)
    obtain ⟨hrest, hlast⟩ := advance_reads hts hadvance
    exact .inl ⟨rfl, by rw [Builder.Reads, hts, hrest]; rfl, hlast⟩
  | false =>
    obtain ⟨rfl, rfl⟩ := pure_eq_ok.mp h
    exact .inr ⟨rfl, rfl, fun heq => by simp [heq] at hfound⟩

theorem consume_eq_ok {what : String} {a : Unit} (hne : token ≠ .eof)
    (h : consume token what b = .ok a b') : b.Reads b' [token] ∧ b'.last.token = token := by
  obtain ⟨found, t, haccept, h⟩ := bind_eq_ok.mp h
  rcases accept_eq_ok hne haccept with ⟨rfl, hreads, hlast⟩ | ⟨rfl, rfl, _⟩
  · obtain ⟨_, rfl⟩ := pure_eq_ok.mp h
    exact ⟨hreads, hlast⟩
  · change (peek >>= fun t => complain t (.expected what)) b = _ at h
    obtain ⟨_, _, _, h⟩ := bind_eq_ok.mp h
    exact absurd h throw_ne_ok

theorem consumeName_eq_ok {what x : String} (h : consumeName what b = .ok x b') :
    b.Reads b' [.name x] ∧ b'.last.token = .name x := by
  obtain ⟨t, _, hpeek, h⟩ := bind_eq_ok.mp h
  obtain ⟨rfl, rfl⟩ := peek_eq_ok hpeek
  generalize hfirst : b.peek.token = first at h
  split at h
  · obtain ⟨_, u, hadvance, h⟩ := bind_eq_ok.mp h
    obtain ⟨rfl, rfl⟩ := pure_eq_ok.mp h
    obtain ⟨ts, hts⟩ := upcoming_of_peek (by simp) hfirst
    obtain ⟨hrest, hlast⟩ := advance_reads hts hadvance
    exact ⟨by rw [Builder.Reads, hts, hrest]; rfl, hlast⟩
  · exact absurd h throw_ne_ok

end
end Compile
end RatScript
