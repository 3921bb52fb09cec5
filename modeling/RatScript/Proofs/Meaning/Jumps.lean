import RatScript.Proofs.Meaning.Instruction
import RatScript.Proofs.Number.Counting

/-!
Instructions that decide where the code goes on: jumps, the count of a loop, calls and returns.
-/

namespace RatScript

/-- A count that is accepted is a whole number from 1 to 2^24. -/
theorem Content.counts_of_passes {c : Content} {n : Nat} (h : c.passes = .ok n) :
    0 < n ∧ n ≤ 2^24 ∧ ∃ x : Number, c = .number x ∧ x.Counts n := by
  unfold passes at h
  cases hint : c.integral? with
  | none =>
    rw [hint] at h
    cases h
  | some k =>
    simp only [hint] at h
    split at h
    · cases h
    split at h
    · cases h
    next hpos hle =>
    cases h
    have hpos : 0 < k := Int32.not_le.mp hpos
    have hpos' : 0 < k.toInt := by simpa [Int32.lt_iff_toInt_lt] using hpos
    have hle' : k.toInt ≤ 2^24 := by simpa [maxRepeat] using hle
    refine ⟨by omega, by omega, ?_⟩
    cases c with
    | number x => exact ⟨x, rfl, Number.counts_of_integral? hint hpos⟩
    | _ => cases hint

/-- The counts of passes that are accepted. -/
theorem Content.passes_eq_ok {c : Content} {n : Nat} :
    c.passes = .ok n ↔ 0 < n ∧ n ≤ 2^24 ∧ ∃ x : Number, c = .number x ∧ x.Counts n := by
  refine ⟨counts_of_passes, ?_⟩
  rintro ⟨hpos, hle, x, rfl, hx⟩
  have hint : (Int32.ofInt n).toInt = n := Int32.toInt_ofInt_of_le (by omega) (by omega)
  have hnot : ¬ Int32.ofInt n ≤ 0 := by
    rw [Int32.le_iff_toInt_le, hint]
    simpa using hpos.ne'
  have hmax : ¬ (maxRepeat : Int) < n := by simpa [maxRepeat] using hle
  simp only [passes, integral?, hx.integral?_eq (by omega), if_neg hnot, hint, if_neg hmax,
    Int.toNat_natCast]

/-- All others are of the wrong type. -/
theorem Content.kind_of_passes {c : Content} {f : Fault} (h : c.passes = .error f) :
    f.kind = .typeError := by
  unfold passes at h
  split at h
  · split at h
    · cases h
      rfl
    · split at h <;> cases h
      rfl
  · cases h
    rfl

namespace Exec

open Machine Spot

variable {line : Nat} {q : Spot} {p : Program} {P : Array (Array Value)} {z : Setting}
  {f : Function} {ip : Nat} {upper : List Content} {σ : Store} {m : Machine} {x : String}
  {i : UInt8} {word : UInt16} {c : Content}

theorem execute_newline (hm : q.Shown p P z ip upper σ m) :
    Follows line σ (pure ()) m (execute p q.function f .newline) fun _ σ' _ m' =>
      q.Shown p P z ip upper σ' m' :=
  .done rfl hm

theorem execute_pop (hm : q.Shown p P z ip (upper++[c]) σ m) :
    Follows line σ (pure ()) m (execute p q.function f .pop) fun _ σ' _ m' =>
      q.Shown p P z ip upper σ' m' := by
  obtain ⟨m', hpop, hm'⟩ := hm.pop
  exact .done hpop hm'

/-! Jumps. -/

theorem jumpBy_shown (hm : q.Shown p P z ip upper σ m) (word : UInt16) :
    ∃ m', jumpBy word m = .ok () m' ∧ q.Shown p P z (ip+word.toNat) upper σ m' := by
  obtain ⟨m', hset, hm'⟩ := hm.setIp (ip+word.toNat)
  exact ⟨m', by simp only [jumpBy, bind, EStateM.bind, hm.frame, hset], hm'⟩

section
variable (hhigh : f.chunk.code[ip]? = some (Word.high word))
  (hlow : f.chunk.code[ip+1]? = some (Word.low word))
include hhigh hlow

theorem execute_jump (hm : q.Shown p P z ip upper σ m) :
    Follows line σ (pure ()) m (execute p q.function f .jump) fun _ σ' _ m' =>
      q.Shown p P z (ip+2+word.toNat) upper σ' m' := by
  obtain ⟨m₁, hread, hm₁⟩ := hm.readWord hhigh hlow
  obtain ⟨m₂, hjump, hm₂⟩ := jumpBy_shown hm₁ word
  exact .skip hread (.done hjump hm₂)

/-- The value that is tested stays where it is. -/
theorem execute_jumpIf (hm : q.Shown p P z ip (upper++[c]) σ m) (truth : Bool) :
    Follows line σ (pure ()) m (execute p q.function f (.jumpIf truth)) fun _ σ' _ m' =>
      q.Shown p P z (if c.isTruthy = truth then ip+2+word.toNat else ip+2) (upper++[c]) σ' m' := by
  obtain ⟨m₁, hread, hm₁⟩ := hm.readWord hhigh hlow
  obtain ⟨w, hpeek, hw⟩ := hm₁.peek
  obtain ⟨m₂, hjump, hm₂⟩ := jumpBy_shown hm₁ word
  refine .skip hread (.skip hpeek (.skip (isTruthy_eq_ok hw) ?_))
  by_cases htruth : c.isTruthy = truth
  · simp only [htruth, beq_self_eq_true, if_true]
    exact .done hjump hm₂
  · have hbeq : (c.isTruthy == truth) = false := by simpa using htruth
    simp only [htruth, hbeq, Bool.false_eq_true, if_false]
    exact .done rfl hm₁

theorem execute_loop (hm : q.Shown p P z ip upper σ m) (hle : word.toNat ≤ ip+2) :
    Follows line σ (pure ()) m (execute p q.function f .loop) fun _ σ' _ m' =>
      q.Shown p P z (ip+2-word.toNat) upper σ' m' := by
  obtain ⟨m₁, hread, hm₁⟩ := hm.readWord hhigh hlow
  obtain ⟨m₂, hset, hm₂⟩ := hm₁.setIp (ip+2-word.toNat)
  refine .skip hread (.skip hm₁.frame ?_)
  rw [if_pos hle]
  exact .done hset hm₂

end

/-! Counted loops. -/

/-- The count stays on the stack. -/
theorem execute_repeat (hm : q.Shown p P z ip (upper++[c]) σ m) :
    Follows line σ (Walk.lift line c.passes) m (execute p q.function f .repeat_) fun n σ' _ m' =>
      c.passes = .ok n ∧ q.Shown p P z ip (upper++[c]) σ' m' := by
  obtain ⟨w, hpeek, hw⟩ := hm.peek
  have hpresents := hm.2.toPresents
  refine .skip hpeek ?_
  unfold Content.passes
  rw [Heap.integral?_of_content? hw]
  cases c.integral? with
  | none => exact .skip (describe_eq_ok hw) (.raise rfl hpresents)
  | some n =>
    dsimp only
    split
    · exact .skip (describe_eq_ok hw) (.raise rfl hpresents)
    split
    · exact .raise rfl hpresents
    · exact .done rfl ⟨rfl, hm⟩

/-- At the last pass the counter goes and the way back is passed over; else it counts one less. -/
theorem execute_endRepeat {n : Number} {k : Nat} (hm : q.Shown p P z ip (upper++[Content.number n]) σ m)
    (hn : n.Counts (k+1)) (hle : k+1 ≤ 2^24) :
    Follows line σ (pure ()) m (execute p q.function f .endRepeat) fun _ σ' _ m' =>
      if k = 0 then q.Shown p P z (ip+3) upper σ' m'
      else q.Shown p P z ip (upper++[Content.number (n.sub (.ofInt 1))]) σ' m' := by
  obtain ⟨w, hpeek, hw⟩ := hm.peek
  obtain rfl := Heap.eq_number_of_content? hw
  have hless := hn.sub_one hle
  refine .skip hpeek ?_
  dsimp only
  cases k with
  | zero =>
    rw [if_pos rfl] at hless
    have hzero : ((n.sub (.ofInt 1)).less .zero || (n.sub (.ofInt 1)).same .zero) = true := by
      rw [hless]
      rfl
    rw [hzero]
    obtain ⟨m₁, hpop, hm₁⟩ := hm.pop
    obtain ⟨m₂, hset, hm₂⟩ := hm₁.setIp (ip+Opcode.loop.width)
    exact .skip hpop (.skip hm₁.frame (.done hset hm₂))
  | succ k =>
    rw [if_neg (Nat.succ_ne_zero k)] at hless
    rw [hless.above]
    obtain ⟨m₁, hreplace, hm₁⟩ := replaceTop_shows
      (loosen (v := .number (n.sub (.ofInt 1))) hm.over rfl (by simp))
    exact .done hreplace (hm.next rfl hm₁)

/-! Calls. -/

theorem execute_callNative {cs : List Content} {d : Content}
    (hm : q.Shown p P z ip (upper++d :: cs) σ m) (hf : p.function? q.function = some f)
    (hk : p.constant? q.function i = some (.text x)) (hbyte : f.chunk.code[ip]? = some i)
    (hcount : f.chunk.code[ip+1]? = some (UInt8.ofNat cs.length)) (hfew : cs.length < 256)
    (hroom : q.Room z upper 2) :
    Follows line σ (Walk.callNative line x cs) m (execute p q.function f .callNative)
      fun c σ' _ m' => q.Shown p P z (ip+2) (upper++[c]) σ' m' := by
  obtain ⟨m₁, hread, hm₁⟩ := hm.identifier hbyte (identifier?_of_constant? hf hk)
  obtain ⟨m₂, hread', hm₂⟩ := hm₁.readByte hcount
  have hbyte : (UInt8.ofNat cs.length).toNat = cs.length := by
    simp only [UInt8.toNat_ofNat']
    omega
  have hlow : (q.under++σ.cells++upper).length+1 < z.config.stackCapacity := by
    have hnames : σ.locals.length = q.names.length := by rw [← hm.1, List.length_map]
    have h : q.under.length+q.names.length+upper.length+2 ≤ z.config.stackCapacity := hroom
    simp only [List.length_append, σ.length_cells, hnames]
    omega
  refine .skip hread (.skip hread' ?_)
  rw [hbyte]
  refine (callNative_follows hm₂.over hlow).mono ?_
  rintro c σ' _ m' ⟨hlocals, hm'⟩
  exact hm₂.next hlocals hm'

/-- A call of the only runnable enters it, over its own value and its arguments. -/
theorem execute_call {cs : List Content} {d : Content} {id : Nat} {g : Function}
    (hm : q.Shown p P z ip (upper++d :: cs) σ m) (hf : p.function? q.function = some f)
    (hk : p.constant? q.function i = some (.text x)) (hbyte : f.chunk.code[ip]? = some i)
    (honly : ∀ r id' name, z.typed r (.runnable id' name) → id' = id)
    (hg : p.function? id = some g) (harity : g.arity = cs.length)
    (hdepth : q.callers.length+1 < z.config.maxCallDepth) :
    Follows line σ (Walk.runnable line x) m (execute p q.function f .call) fun _ σ' _ m' =>
      σ' = σ ∧ m'.Shows p P z σ (q.under++σ.cells++upper++d :: cs)
        (⟨id, 0, (q.under++σ.cells++upper).length⟩ :: ⟨q.function, ip+1, q.base⟩ :: q.callers) := by
  obtain ⟨m₁, hread, hm₁⟩ := hm.identifier hbyte (identifier?_of_constant? hf hk)
  refine .skip hread ((global_follows hm₁.2.toPresents x).bind ?_)
  rintro c σ w m₁ ⟨⟨rfl, rfl, hw⟩, _⟩
  refine .skip (object_eq_ok hw) ?_
  cases c with
  | runnable r id' name =>
    obtain rfl : id' = id := by
      cases w with
      | object s =>
        obtain ⟨o, ho, hcontent⟩ := Option.map_eq_some_iff.mp hw
        obtain ⟨k, hlive, rfl⟩ := Option.map_eq_some_iff.mp ho
        have htyped := hm₁.2.counted.typed s k hlive
        cases hobject : k.object <;> rw [hobject] at hcontent <;> cases hcontent
        exact honly _ id' name (hobject ▸ htyped)
      | none | number | bool => cases hw
    have hsize := hm₁.over.length_eq
    rw [List.length_append, List.length_cons] at hsize
    have hdepth' : ¬ m₁.config.maxCallDepth ≤ m₁.frames.length := by
      rw [hm₁.2.counted.config, hm₁.2.frames, List.length_cons]
      omega
    simp only [Content.object?, hg]
    refine .skip rfl ?_
    rw [if_neg hdepth', if_neg (by omega)]
    refine .done rfl ⟨rfl, ?_⟩
    have hbase : m₁.stack.size-(g.arity+1) = (q.under++σ.cells++upper).length := by omega
    dsimp only
    rw [hbase, hm₁.2.frames]
    have hroom := hm₁.2.counted.room
    refine hm₁.over.move ?_ rfl rfl ⟨hm₁.2.globals, hm₁.2.input, hm₁.2.output, hm₁.2.files⟩
      hm₁.over.stack hm₁.2.transit rfl hm₁.2.traced
    refine hm₁.2.counted.move rfl rfl hm₁.2.counted.pinned rfl (fun _ => rfl) hm₁.2.counted.named
      hroom ?_
    intro fr hfr
    rcases List.mem_cons.mp hfr with rfl | hfr
    · dsimp only
      omega
    · exact hm₁.2.counted.bases fr (by rw [hm₁.2.frames]; exact hfr)
  | none | number | bool | text | native => exact .raise rfl hm₁.2.toPresents

/-- The result takes the place of the call's cells. -/
theorem execute_ret {low high : List Content} {fr caller : Frame} {rest : List Frame} {id : Nat}
    (hm : m.Shows p P z σ (low++(high++[c])) (fr :: caller :: rest)) (hbase : low.length = fr.base) :
    Follows line σ (pure ()) m (execute p id f .ret) fun _ σ' _ m' =>
      σ' = σ ∧ m'.Shows p P z σ (low++[c]) (caller :: rest) := by
  have hm' : m.Shows p P z σ ((low++high)++[c]) (fr :: caller :: rest) := by
    rwa [List.append_assoc]
  obtain ⟨w, hpeek, hw⟩ := top_shows hm'
  have hroom : low.length < z.config.stackCapacity := by
    have h := hm.room
    simp only [List.length_append, List.length_singleton] at h
    omega
  obtain ⟨m₁, hcollapse, hm₁⟩ := collapse_shows hm hw hroom
  refine .skip hpeek (.skip rfl ?_)
  rw [hm.frames]
  dsimp only
  rw [← hbase]
  refine .skip hcollapse (.done rfl ⟨rfl, ?_⟩)
  dsimp only
  refine hm₁.move ?_ rfl rfl ⟨hm₁.globals, hm₁.input, hm₁.output, hm₁.files⟩ hm₁.stack hm₁.transit
    (by rw [hm₁.frames]; rfl) hm₁.traced
  refine hm₁.counted.move rfl rfl hm₁.counted.pinned rfl (fun _ => rfl) hm₁.counted.named
    hm₁.counted.room ?_
  intro g hg
  exact hm₁.counted.bases g (List.mem_of_mem_drop hg)

end Exec
end RatScript
