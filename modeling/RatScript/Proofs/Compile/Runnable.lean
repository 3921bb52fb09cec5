import RatScript.Proofs.Compile.Statement

/-!
Runnables: the body is compiled as a function of its own, from its arguments on, and stands finished
behind all other functions before the script that declares it goes on.
-/

set_option synthInstance.maxSize 65536

namespace RatScript

open Stateful

namespace Builder

/-- A runnable is opened behind the other functions and becomes the current one. -/
def opened (b : Builder) (name : String) (arity : Nat) : Builder :=
  {b with
    functions := b.functions.push (.new name (some b.current) arity)
    current := b.functions.size
    depth := 1
    locals := []}

/-- The runnable at a place is closed, and compilation goes on where another state has left. -/
def closed (t b : Builder) (id : Nat) (lines : UInt16) : Builder :=
  {t with
    functions := t.functions.modify id fun f => {f with lineCount := lines}
    current := b.current
    depth := b.depth
    locals := b.locals}

section
variable {b t : Builder} {name : String} {arity : Nat}

theorem function_opened (b : Builder) (name : String) (arity : Nat) :
    (b.opened name arity).function = .new name (some b.current) arity := by
  simp [function, opened]

theorem ready_opened (hb : b.Ready) : (b.opened name arity).Ready := by
  have hthere := hb.there
  refine ⟨by simp [opened], ?_, ?_, ?_⟩
  · rw [function_opened]
    exact Nat.zero_le _
  · rw [function_opened]
    have hne : (b.functions.size != 0) = true := bne_iff_ne.mpr (by omega)
    change false = !(b.functions.size != 0)
    rw [hne]
    rfl
  · intro id f hf callee hcallee
    have hsize : (b.opened name arity).functions.size = b.functions.size+1 := Array.size_push _
    rw [hsize]
    change (b.functions.push _)[id]? = _ at hf
    rw [Array.getElem?_push] at hf
    split at hf
    · cases hf
      simp [Function.new, Chunk.empty] at hcallee
    · have hold := hb.declared id f hf callee hcallee
      omega

theorem functions_opened {id : Nat} (hid : id < b.functions.size) :
    (b.opened name arity).functions[id]? = b.functions[id]? := by
  change (b.functions.push _)[id]? = _
  rw [Array.getElem?_push, if_neg (by omega)]

/-- The declaration of a finished runnable leaves the functions before it as they were. -/
theorem closed_lays (lines : UInt16) (hb : b.Ready) {c : Phrase} {k : Nat}
    (ht : (b.opened name arity).Writes t (Directive.encode (c.directives++Program.epilogue)))
    (hc : c.Takes t.program t.function arity k) (harity : arity ≤ Compile.maxLocals)
    (hname : Native.ofName? name = none) :
    b.Lays (t.closed b b.functions.size lines) [] ∧
    ∃ f, (t.closed b b.functions.size lines).program.function? b.functions.size = some f ∧
      f.isScript = false := by
  have hthere := hb.there
  have hnew := (ht.toGrows (ready_opened hb)).function
  rw [function_opened] at hnew
  have hcurrent : t.current = b.functions.size := ht.current
  have hself : t.functions[b.functions.size]? = some t.function := by
    rw [← hcurrent]
    exact ht.ready.here
  have hother (id : Nat) (hne : id ≠ b.functions.size) :
      (t.closed b b.functions.size lines).functions[id]? = t.functions[id]? := by
    change (t.functions.modify _ _)[id]? = _
    rw [Array.getElem?_modify, if_neg (Ne.symm hne)]
  have hhere : (t.closed b b.functions.size lines).functions[b.functions.size]? =
      some {t.function with lineCount := lines} := by
    change (t.functions.modify _ _)[b.functions.size]? = _
    rw [Array.getElem?_modify, if_pos rfl, hself]
    rfl
  have hold (id : Nat) (hid : id < b.functions.size) :
      (t.closed b b.functions.size lines).functions[id]? = b.functions[id]? := by
    rw [hother id (by omega), ht.kept id (by simp [opened]; omega) (by simp [opened]; omega),
      functions_opened hid]
  have hfun : (t.closed b b.functions.size lines).function = b.function := by
    change (t.closed b b.functions.size lines).functions[b.current]?.getD default = _
    rw [hold _ hthere]
    rfl
  have hgrows : t.program.Grows (t.closed b b.functions.size lines).program := by
    intro id f hf
    by_cases hid : id = b.functions.size
    · subst hid
      change t.functions[b.functions.size]? = some f at hf
      rw [hself] at hf
      cases hf
      exact ⟨_, hhere, rfl, rfl, rfl, List.prefix_rfl⟩
    · exact ⟨f, (hother id hid).trans hf, .refl f⟩
  have hfinished : Function.Finished (t.closed b b.functions.size lines).program b.functions.size
      {t.function with lineCount := lines} := by
    refine ⟨⟨b.current, hnew.enclosing, hthere⟩, hnew.arity ▸ harity, hnew.name ▸ hname, c, k, ?_,
      ?_⟩
    · have hcode := ht.code
      simpa [written, function_opened, Function.new, Chunk.empty] using hcode
    · have hlines : t.function.Grows {t.function with lineCount := lines} :=
        ⟨rfl, rfl, rfl, List.prefix_rfl⟩
      rw [show arity = t.function.arity from hnew.arity.symm] at hc
      exact hc.mono hgrows hlines
  refine ⟨⟨⟨⟨?_, hfun ▸ hb.pool, ?_, ?_⟩, rfl, ?_, ?_, fun id hid _ => hold id hid, ?_⟩, rfl, rfl⟩,
    _, hhere, ?_⟩
  · change b.current < (t.functions.modify _ _).size
    rw [Array.size_modify]
    have hlt := (Array.getElem?_eq_some_iff.mp hself).1
    omega
  · rw [hfun, hb.script]
    rfl
  · intro id f hf callee hcallee
    change _ ∧ _ < (t.functions.modify _ _).size
    rw [Array.size_modify]
    by_cases hid : id = b.functions.size
    · rw [hid, hhere] at hf
      cases hf
      exact ht.ready.callees callee hcallee
    · exact ht.ready.declared id f ((hother id hid).symm.trans hf) callee hcallee
  · intro id f hf
    have hid := (Array.getElem?_eq_some_iff.mp hf).1
    exact ⟨f, (hold id hid).trans hf, .refl f⟩
  · rw [written, written, hfun, List.append_nil]
  · intro id f hid hf
    by_cases hsame : id = b.functions.size
    · subst hsame
      rw [hhere] at hf
      cases hf
      exact hfinished
    · rw [hother id hsame] at hf
      have hlater : (b.opened name arity).functions.size ≤ id := by
        simp [opened]
        omega
      exact (ht.fresh id f hlater hf).mono hgrows (.refl f) rfl
  · change (t.function.enclosing).isNone = false
    rw [hnew.enclosing]
    rfl

end

theorem offers_defineRunnable {b : Builder} {index : UInt8} {id : Nat} {callee : Function}
    (lines : UInt16) (hc : b.function.chunk.constant? index = some (.runnable id))
    (hf : b.program.function? id = some callee) (hs : callee.isScript = false) :
    b.Offers ⟨.defineRunnable, .runnable index lines, rfl⟩ ⟨0, 0⟩ where
  straight := rfl
  checked := by
    simp only [Function.checkOperand, Directive.at_, Function.checkConstant, hc, hf, hs]
    rfl
  effect := rfl
  returns := nofun
  live := nofun

end Builder

namespace Compile

variable {b b' : Builder}

theorem parameters_writes {params : List (String × Located)} {a : PUnit} (hb : b.Ready)
    (h : (params.forM fun (name, t) => addLocal (some name) t : Compile PUnit) b = .ok a b') :
    b.Writes b' [] ∧ b'.depth = b.depth ∧ b'.locals.length = params.length+b.locals.length ∧
    (b.Scoped → b'.Scoped) := by
  induction params generalizing b with
  | nil =>
    obtain ⟨_, rfl⟩ := pure_eq_ok.mp h
    exact ⟨.refl hb, rfl, by simp, fun hs => hs⟩
  | cons param params ih =>
    obtain ⟨_, t, hlocal, h⟩ := bind_eq_ok.mp h
    obtain ⟨hwrites, hlocals, hdepth⟩ := addLocal_writes hb hlocal
    obtain ⟨hrest, hd, hl, hs⟩ := ih hwrites.ready h
    refine ⟨hwrites.trans hrest hb, hd.trans hdepth, ?_, ?_⟩
    · rw [hl, hlocals, List.length_cons, List.length_cons]
      omega
    · intro hscoped
      apply hs
      rw [Builder.Scoped, hlocals, hdepth]
      intro l hl
      rcases List.mem_cons.mp hl with rfl | hl
      · exact Nat.le_refl _
      · exact hscoped l hl

theorem parameters_fit {params : List (String × Located)} {a : PUnit}
    (hb : b.locals.length ≤ maxLocals)
    (h : (params.forM fun (name, t) => addLocal (some name) t : Compile PUnit) b = .ok a b') :
    b'.locals.length ≤ maxLocals := by
  induction params generalizing b with
  | nil =>
    obtain ⟨_, rfl⟩ := pure_eq_ok.mp h
    exact hb
  | cons param params ih =>
    obtain ⟨_, t, hlocal, h⟩ := bind_eq_ok.mp h
    exact ih (addLocal_fits hlocal) h

theorem inFunction_eq_ok {id : Nat} {body : Compile Unit} {a : Unit}
    (h : inFunction id body b = .ok a b') :
    ∃ t, body {b with current := id, depth := 1, locals := []} = .ok a t ∧
      b' = {t with current := b.current, depth := b.depth, locals := b.locals} := by
  obtain ⟨_, _, hget, h⟩ := bind_eq_ok.mp h
  obtain ⟨rfl, rfl⟩ := get_eq_ok.mp hget
  obtain ⟨_, _, hget, h⟩ := bind_eq_ok.mp h
  obtain ⟨rfl, rfl⟩ := get_eq_ok.mp hget
  obtain ⟨_, _, hget, h⟩ := bind_eq_ok.mp h
  obtain ⟨rfl, rfl⟩ := get_eq_ok.mp hget
  obtain ⟨_, t, hset, h⟩ := bind_eq_ok.mp h
  cases modify_eq_ok.mp hset
  obtain ⟨t, hbody, rfl⟩ := tryFinally_modify_eq_ok.mp h
  exact ⟨t, hbody, rfl⟩

section
variable {statement : Compile Unit} [Keeps Builder.Reports statement]
  (hstatement : Executes statement)
include hstatement

/-- The body of a runnable is a phrase from its arguments on, and then it returns. -/
theorem runnableBody_finishes {params : List (String × Located)} {a : Unit} (hb : b.Ready)
    (hlocals : b.locals = []) (h : runnableBody statement params b = .ok a b')
    (hs : b'.diagnostics = #[]) :
    ∃ (c : Phrase) (k : Nat),
      b.Writes b' (Directive.encode (c.directives++Program.epilogue)) ∧
      c.Takes b'.program b'.function params.length k ∧ params.length ≤ maxLocals := by
  dsimp only [runnableBody] at h
  obtain ⟨_, b1, hparams, _, h⟩ := bind_silent h hs
  obtain ⟨_, b2, hline, _, h⟩ := bind_silent h hs
  obtain ⟨_, _, hget, _, h⟩ := bind_silent h hs
  obtain ⟨rfl, rfl⟩ := get_eq_ok.mp hget
  obtain ⟨_, b3, hdecls, hs3, h⟩ := bind_silent h hs
  obtain ⟨eof, b4, hcheck, _, h⟩ := bind_silent h hs
  have hfit := parameters_fit (by simp [hlocals]) hparams
  obtain ⟨hparams, _, hcount, hscoped⟩ := parameters_writes hb hparams
  rw [hlocals, List.length_nil, Nat.add_zero] at hcount
  have hscoped1 : b1.Scoped := hscoped (by simp [Builder.Scoped, hlocals])
  obtain ⟨c, hc⟩ := Compiles.endOfLine (m := 0) _ _ b2 hparams.ready hline
  obtain ⟨d, new, hd⟩ := declarations_runs hstatement hc.ready (hc.scope hscoped1) hdecls hs3
  have hbody := hc.covers.runs.seq hd hparams.ready
  have hpast := (still_of_ok hcheck).lays hd.ready
  cases eof with
  | true =>
    obtain ⟨_, _, _, h⟩ := bind_eq_ok.mp h
    obtain ⟨_, _, hfail, _⟩ := bind_eq_ok.mp h
    exact absurd hfail throw_ne_ok
  | false =>
    obtain ⟨_, b5, hadvance, h⟩ := bind_eq_ok.mp h
    obtain ⟨_, b6, hnone, h⟩ := bind_eq_ok.mp h
    have hadvance := (still_of_ok hadvance).lays hpast.ready
    have hnone := emitBytes_lays hadvance.ready hnone
    have hret := emitBytes_lays hnone.ready h
    have hend := hpast.trans (hadvance.trans (hnone.trans hret hadvance.ready) hpast.ready) hd.ready
    have hg := hend.toGrows hd.ready
    have hall := hparams.trans (hbody.toWrites.trans hend.toWrites hparams.ready) hb
    refine ⟨.seq c d, params.length+(new++[]).length, ?_, ?_, hcount ▸ hfit⟩
    · rw [Directive.encode_append]
      exact hall
    · have hl : b1.Level params.length := fun _ => hcount.symm
      exact (hbody.takes _ hl).mono hg.program hg.function

omit [Keeps Builder.Reports statement] hstatement in
/-- What follows the header of a runnable: its body, as a function of its own, and the instruction
that defines it. -/
theorem runnable_eq_ok {name : String} {params : Array (String × Located)} {t : Located} {a : Unit}
    (h : (do
      modify fun b => {b with functions := b.functions.push (.new name (some b.current) params.size)}
      inFunction b.functions.size (runnableBody statement params.toList)
      let after ← get
      let lines := match after.functions[b.functions.size]? with
        | some f => lineMarkers f.chunk
        | none => 0
      match Word.ofNat? lines with
      | none => complain t .bodyTooLong
      | some lines =>
        modify (·.modifyFunction b.functions.size fun f => {f with lineCount := lines})
        let index ← enter (·.addConstant (.runnable b.functions.size))
        emitBytes [Opcode.defineRunnable.toByte, index, Word.high lines, Word.low lines]
        endOfLine : Compile Unit) b = .ok a b') :
    ∃ (u b1 b2 : Builder) (lines : UInt16) (index : UInt8),
      runnableBody statement params.toList (b.opened name params.size) = .ok () u ∧
      (∀ f, u.functions[b.functions.size]? = some f →
        Word.ofNat? (lineMarkers f.chunk) = some lines) ∧
      enter (·.addConstant (.runnable b.functions.size)) (u.closed b b.functions.size lines) =
        .ok index b1 ∧
      emitBytes (Directive.mk .defineRunnable (.runnable index lines) rfl).bytes b1 = .ok () b2 ∧
      endOfLine b2 = .ok a b' := by
  obtain ⟨_, b1, hpush, h⟩ := bind_eq_ok.mp h
  cases modify_eq_ok.mp hpush
  obtain ⟨_, b2, hfunction, h⟩ := bind_eq_ok.mp h
  obtain ⟨_, _, hget, h⟩ := bind_eq_ok.mp h
  obtain ⟨rfl, rfl⟩ := get_eq_ok.mp hget
  obtain ⟨u, hbody, rfl⟩ := inFunction_eq_ok hfunction
  dsimp only at h
  generalize hword : Word.ofNat? _ = word at h
  cases word with
  | none => exact absurd h throw_ne_ok
  | some lines =>
    obtain ⟨_, b3, hlines, h⟩ := bind_eq_ok.mp h
    cases modify_eq_ok.mp hlines
    obtain ⟨index, b4, henter, h⟩ := bind_eq_ok.mp h
    obtain ⟨_, b5, hdefine, hend⟩ := bind_eq_ok.mp h
    refine ⟨u, b4, b5, lines, index, hbody, ?_, henter, hdefine, hend⟩
    intro f hf
    simpa only [hf] using hword

/-- The body of a runnable is finished before the instruction that defines it. -/
theorem runnable_lays {name : String} {params : Array (String × Located)} {u b1 b2 : Builder}
    {lines : UInt16} {index : UInt8} {a : Unit} (hb : b.Ready) (hs : u.diagnostics = #[])
    (hname : Native.ofName? name = none)
    (hbody : runnableBody statement params.toList (b.opened name params.size) = .ok () u)
    (henter : enter (·.addConstant (.runnable b.functions.size))
      (u.closed b b.functions.size lines) = .ok index b1)
    (hdefine : emitBytes (Directive.mk .defineRunnable (.runnable index lines) rfl).bytes b1 =
      .ok a b2) :
    b.Lays b1 [] ∧ (u.closed b b.functions.size lines).Lays b1 [] ∧
      b1.Lays b2 (Directive.mk .defineRunnable (.runnable index lines) rfl).bytes ∧
      b1.function.chunk.constant? index = some (.runnable b.functions.size) ∧
      ∃ callee, b1.program.function? b.functions.size = some callee ∧ callee.isScript = false := by
  obtain ⟨c, k, hwrites, htakes, hfit⟩ := runnableBody_finishes (b := b.opened name params.size)
    hstatement (Builder.ready_opened hb) rfl hbody hs
  rw [Array.length_toList] at htakes hfit
  obtain ⟨hlays, callee, hcallee, hnot⟩ :=
    Builder.closed_lays lines hb hwrites htakes hfit hname
  have hthere : 0 < b.functions.size ∧
      b.functions.size < (u.closed b b.functions.size lines).functions.size :=
    ⟨Nat.zero_lt_of_lt hb.there, (Array.getElem?_eq_some_iff.mp hcallee).1⟩
  obtain ⟨hentered, _, rfl, hconstant⟩ := enter_lays (P := (· = .runnable b.functions.size))
    hlays.ready henter (fun _ hadd => ⟨_, rfl, Chunk.addConstant_gains hadd⟩) (by simpa using hthere)
  obtain ⟨callee', hcallee', hgrows⟩ := hentered.grows _ _ hcallee
  exact ⟨hlays.trans hentered hb, hentered, emitBytes_lays hentered.ready hdefine, hconstant, callee',
    hcallee', hgrows.isScript.trans hnot⟩

omit hstatement in
/-- Nothing is reported in the body if nothing is by the end of the declaration. -/
theorem runnable_silent {u b1 b2 : Builder} {lines : UInt16} {index : UInt8} {a a' : Unit}
    (hs : b'.diagnostics = #[])
    (henter : enter (·.addConstant (.runnable b.functions.size))
      (u.closed b b.functions.size lines) = .ok index b1)
    (hdefine : emitBytes (Directive.mk .defineRunnable (.runnable index lines) rfl).bytes b1 =
      .ok a b2) (hend : endOfLine b2 = .ok a' b') : u.diagnostics = #[] := by
  have hline := ((inferInstance : Keeps Builder.Reports endOfLine).of_ok hend).silent hs
  have hemit := ((inferInstance : Keeps Builder.Reports (emitBytes _)).of_ok hdefine).silent hline
  exact ((inferInstance : Keeps Builder.Reports (enter _)).of_ok henter).silent hemit

theorem runnableDeclaration_executes : Executes (runnableDeclaration statement) := by
  intro b b' hb _ h hs
  dsimp only [runnableDeclaration] at h
  obtain ⟨_, _, hget, h⟩ := bind_eq_ok.mp h
  obtain ⟨rfl, rfl⟩ := get_eq_ok.mp hget
  split at h
  · obtain ⟨_, _, _, h⟩ := bind_eq_ok.mp h
    obtain ⟨_, _, hfail, _⟩ := bind_eq_ok.mp h
    exact absurd hfail throw_ne_ok
  · obtain ⟨name, b1, hname, h⟩ := bind_eq_ok.mp h
    obtain ⟨t, b2, hlast, h⟩ := bind_eq_ok.mp h
    obtain ⟨_, _, hget, h⟩ := bind_eq_ok.mp h
    obtain ⟨rfl, rfl⟩ := get_eq_ok.mp hget
    split at h
    · obtain ⟨_, _, hfail, _⟩ := bind_eq_ok.mp h
      exact absurd hfail throw_ne_ok
    · next hfresh =>
      have hnative : Native.ofName? name = none := by
        cases hn : Native.ofName? name with
        | none => rfl
        | some n => simp [hn] at hfresh
      obtain ⟨params, b3, hparams, h⟩ := bind_eq_ok.mp h
      obtain ⟨_, b4, hheader, h⟩ := bind_eq_ok.mp h
      obtain ⟨_, _, hget, h⟩ := bind_eq_ok.mp h
      obtain ⟨rfl, rfl⟩ := get_eq_ok.mp hget
      have hname := (still_of_ok hname).lays hb
      have hlast := hname.trans ((still_of_ok hlast).lays hname.ready) hb
      have hparams := hlast.trans ((still_of_ok hparams).lays hlast.ready) hb
      have hheader := hparams.trans ((still_of_ok hheader).lays hparams.ready) hb
      obtain ⟨u, b5, b6, lines, index, hbody, _, henter, hdefine, hend⟩ := runnable_eq_ok h
      have hsilent := runnable_silent hs henter hdefine hend
      obtain ⟨hlays, _, hemit, hconstant, callee, hcallee, hnot⟩ :=
        runnable_lays hstatement hheader.ready hsilent hnative hbody henter hdefine
      have hdefined := Builder.Emits.one hlays.ready hemit
        (Builder.offers_defineRunnable lines hconstant hcallee hnot) (Nat.zero_le 0)
      obtain ⟨d, hd⟩ := Compiles.endOfLine _ _ b' hdefined.ready hend
      have hall := (Builder.Emits.nil (hheader.trans hlays hb) 0).seq hb
        (hdefined.seq hlays.ready hd)
      exact ⟨_, [], hall.covers.runs⟩

end
end Compile
end RatScript
