import RatScript.Proofs.Meaning.Deed
import RatScript.Proofs.Meaning.Jumps
import RatScript.Proofs.Meaning.Progress
import RatScript.Proofs.Meaning.Script
import RatScript.Proofs.Meaning.Variables

/-!
One turn of a script beside one deed. What the turn does to values, variables and streams is told by
the deed and by what is there, whatever the tables of the program hold; it may also find no room on the
stack.
-/

namespace RatScript

open Machine

namespace Walk

/-- There is room for one cell above so many. -/
def room (capacity cells : Nat) : Walk Unit :=
  if cells < capacity then return else raise 0 (.stackOverflow capacity)

end Walk

namespace Deed

/-- Values that the deed finds on the stack. -/
def needs : Deed → Nat
  | pop | unary _ | define _ | jumpIf _ _ | repeat_ | endRepeat => 1
  | assign (.count _) _ => 0
  | assign _ _ => 1
  | operator _ | test _ => 2
  | callNative _ count => count+1
  | _ => 0

theorem exists_two {st : List Content} (h : 2 ≤ st.length) : ∃ b a rest, st = b :: a :: rest := by
  obtain ⟨b, tail, rfl⟩ := List.exists_cons_of_length_pos (Nat.lt_of_succ_lt h)
  obtain ⟨a, rest, rfl⟩ := List.exists_cons_of_length_pos (Nat.lt_of_succ_lt_succ h)
  exact ⟨b, a, rest, rfl⟩

/-- What the deed does with the values on the stack, the topmost first: whether it leaves the straight
way, and the values behind it. -/
def act (capacity : Nat) : Deed → List Content → Walk (Bool × List Content)
  | pop, _ :: st => return (false, st)
  | constant c, st => do
    Walk.room capacity st.length
    return (false, c :: st)
  | literal value, st => do
    Walk.room capacity st.length
    return (false, Expr.literalContent value :: st)
  | operator op, b :: a :: st => do return (false, (← Walk.lift 0 (a.apply op b)) :: st)
  | test t, b :: a :: st => do return (false, .bool (← Walk.lift 0 (Content.test t a b)) :: st)
  | unary u, c :: st => do return (false, (← Walk.lift 0 (Expr.applyUnary u c)) :: st)
  | define x, c :: st => do
    Walk.define 0 x c
    return (false, st)
  | get x, st => do
    let c ← Walk.global 0 x
    Walk.room capacity st.length
    return (false, c :: st)
  | assign .plain x, c :: st => do
    let _ ← Walk.assignable 0 x
    Walk.write x c
    return (false, c :: st)
  | assign (.count up) x, st => do
    let c ← Walk.lift 0 ((← Walk.assignable 0 x).counted up)
    Walk.write x c
    Walk.room capacity st.length
    return (false, c :: st)
  | assign (.compound op) x, c :: st => do
    let d ← Walk.lift 0 ((← Walk.assignable 0 x).apply op c)
    Walk.write x d
    return (false, d :: st)
  | callNative x count, st => do
    let c ← Walk.callNative 0 x (st.take count).reverse
    Walk.room capacity (st.length-count)
    return (false, c :: st.drop (count+1))
  | jumpIf truth _, c :: st => return (c.isTruthy == truth, c :: st)
  | repeat_, c :: st => do
    let _ ← Walk.lift 0 c.passes
    return (false, c :: st)
  | endRepeat, .number n :: st =>
    let left := n.sub (.ofInt 1)
    return if left.less .zero || left.same .zero then (true, st) else (false, .number left :: st)
  | endRepeat, _ => Walk.raise 0 .repeatCounter
  | _, st => return (false, st)

/-- Where the deed leads from an offset. -/
def goes : Deed → Bool → Nat → Nat
  | jump distance, _, ip => ip+3+distance
  | back distance, _, ip => ip+3-distance
  | jumpIf _ distance, true, ip => ip+3+distance
  | endRepeat, true, ip => ip+4
  | d, _, ip => ip+d.width

/-- Code may have other code in front of it, as long as nothing jumps back over its start. -/
theorem goes_add {d : Deed} {ip : Nat} (hback : ∀ n, d = .back n → n ≤ ip+3) (away : Bool) (k : Nat) :
    d.goes away (k+ip) = k+d.goes away ip := by
  cases d with
  | back n =>
    have h := hback n rfl
    simp only [goes]
    omega
  | jumpIf | endRepeat => cases away <;> simp only [goes] <;> omega
  | _ =>
    simp only [goes]
    omega

end Deed

namespace Exec

open Spot

variable {p : Program} {P : Array (Array Value)} {z : Setting} {σ : Store} {m : Machine}
  {st : List Content} {fs : List Frame} {f : Function} {ip : Nat} {v : Value} {c : Content}

namespace Follows

variable {α β γ : Type} {line : Nat} {w : Walk β} {x : Exec α} {Q : β → Store → α → Machine → Prop}
  {R : γ → Store → α → Machine → Prop}

/-- The result of the walk is put in another form. -/
theorem map {w' : Walk γ} {g : β → γ} (h : Follows line σ w m x Q) (hw : w' = do return g (← w))
    (hq : ∀ b σ' a m', Q b σ' a m' → R (g b) σ' a m') : Follows line σ w' m x R := by
  rw [hw, ← bind_pure x]
  exact h.bind fun b σ' a m' hb => .done rfl (hq b σ' a m' hb)

end Follows

/-- A value is put on the stack if there is room for it. -/
theorem push_follows {l : Option (Value × Content)} (hm : m.Amid p P z [] l σ st fs)
    (hv : m.heap.content? v = some c) {cells : Nat} (hcells : cells = st.length) :
    Follows 0 σ (Walk.room z.config.stackCapacity cells) m (push v) fun _ σ' _ m' =>
      σ' = σ ∧ m'.Shows p P z σ (st++[c]) fs := by
  subst hcells
  unfold Walk.room
  split
  · next hroom =>
    obtain ⟨m', hpush, hm'⟩ := push_shows hm hv hroom
    exact .done hpush ⟨rfl, hm'⟩
  · next hfull =>
    have hconfig := hm.counted.config
    have hpush := push_full (m := m) (by rw [hconfig, hm.length_eq]; omega) v
    rw [hconfig] at hpush
    exact .raise hpush hm.toPresents

theorem content?_of_constant {k : Constant} (hm : m.heap.Matches v k) (hc : k.content? = some c) :
    m.heap.content? v = some c := by
  have h := Heap.content?_of_matches hm
  cases k <;> cases hc <;> exact h

end Exec

/-- In the script all cells are above its locals, which it has none of. -/
theorem Store.length_script {σ : Store} (h : σ.locals.map Prod.fst = Spot.script.names)
    (upper : List Content) : (Spot.script.under++σ.cells++upper).length = upper.length := by
  simp [Spot.script, Store.cells, List.map_eq_nil_iff.mp h]

/-- The machine is where the deed leads, with the values it leaves. -/
def Deed.Lands (e : Deed) (p : Program) (P : Array (Array Value)) (z : Setting) (ip : Nat)
    (r : Bool × List Content) (σ : Store) (_ : Unit) (m : Machine) : Prop :=
  Spot.script.Shown p P z (e.goes r.1 ip) r.2.reverse σ m

namespace Exec

variable {d : Directive} {e : Deed} {ip' : Nat} {x : String} {i : UInt8}

/-- A value is on top, and the code goes straight on. -/
theorem lands_top (hm : Spot.script.Shown p P z ip' (st.reverse++[c]) σ m)
    (hgoes : e.goes false ip = ip') : e.Lands p P z ip (false, c :: st) σ () m := by
  unfold Deed.Lands
  rwa [List.reverse_cons, hgoes]

/-- A value that was found comes on top. -/
theorem push_lands {l : Option (Value × Content)}
    (hm : m.Amid p P z [] l σ (Spot.script.under++σ.cells++st.reverse) [⟨0, ip', 0⟩])
    (hlocals : σ.locals = [])
    (hv : m.heap.content? v = some c) (hgoes : e.goes false ip = ip') :
    Follows 0 σ (do Walk.room z.config.stackCapacity st.length; return (false, c :: st)) m (push v)
      (e.Lands p P z ip) := by
  have hcells : st.length = (Spot.script.under++σ.cells++st.reverse).length := by
    rw [Store.length_script (by rw [hlocals]; rfl), List.length_reverse]
  refine (push_follows hm hv hcells).map rfl ?_
  rintro _ σ _ m' ⟨rfl, hm'⟩
  rw [List.append_assoc] at hm'
  have hshown : Spot.script.Shown p P z ip' (st.reverse++[c]) σ m' := ⟨by rw [hlocals]; rfl, hm'⟩
  exact lands_top hshown hgoes

theorem execute_assign (a : Assignment) (hk : p.constant? 0 i = some (.text x))
    (hm : Spot.script.Shown p P z (ip+1) st.reverse σ m) (hf : p.function? 0 = some f)
    (hbyte : f.chunk.code[ip+1]? = some i) (hneeds : (Deed.assign a x).needs ≤ st.length) :
    Follows 0 σ ((Deed.assign a x).act z.config.stackCapacity st) m
      (execute p 0 f (a.opcode .global)) ((Deed.assign a x).Lands p P z ip) := by
  have hsees : Spot.script.Sees Site.start.toView :=
    ⟨rfl, fun _ => rfl, (absurd rfl ·), (absurd rfl ·), Nat.zero_le _⟩
  have hx : Site.start.toView.Refers p x .global i := .global rfl hk
  cases a with
  | plain =>
    obtain ⟨c, st, rfl⟩ := List.exists_cons_of_length_pos hneeds
    rw [List.reverse_cons] at hm
    refine (execute_set hm hf hsees hx hbyte).map ?_ fun c σ' _ m' hm' => lands_top hm' rfl
    simp only [bind_assoc, pure_bind]
    rfl
  | compound op =>
    obtain ⟨c, st, rfl⟩ := List.exists_cons_of_length_pos hneeds
    rw [List.reverse_cons] at hm
    refine (execute_compound hm hf hsees hx hbyte op).map ?_ fun c σ' _ m' hm' => lands_top hm' rfl
    simp only [bind_assoc, pure_bind]
    rfl
  | count up =>
    have hlocals : σ.locals = [] := List.map_eq_nil_iff.mp hm.1
    have hnone : σ.locals.lookup x = none := by rw [hlocals]; rfl
    obtain ⟨m₁, hread, hm₁⟩ := hm.identifier hbyte (identifier?_of_constant? (q := .script) hf hk)
    refine .skip hread ((assignable_follows hm₁.2.toPresents hnone).bind ?_)
    rintro old σ u m ⟨⟨rfl, rfl, hu⟩, hold⟩
    refine (counted_follows hm₁.2 up hu).bind ?_
    rintro c σ w m₂ ⟨rfl, hm₂⟩
    obtain ⟨m₃, hstore, hm₃, hkept⟩ := storeGlobal_shows hm₂ (hm₂.loose _ rfl).1 hold
    have hw := content?_of_global hm₃.toPresents hkept (Function.update_self ..)
    exact .skip hstore (.lead (write_eq_ok hnone c) (push_lands hm₃ hlocals hw rfl))

theorem pushText_full (h : m.config.stackCapacity ≤ m.stack.size) (content : String) :
    pushText content m = .error (.stackOverflow m.config.stackCapacity) m := by
  change (if m.stack.size < m.config.stackCapacity then _ else _ : Exec Unit) m = _
  rw [if_neg (by omega)]
  rfl

/-- A native without arguments is given no room for its result on a full stack, once it has read its
line. -/
theorem callNative_room {cs : List Content} {low : List Content} {d : Content}
    (hm : m.Shows p P z σ (low++d :: cs) fs) :
    Follows 0 σ
      (do
        let c ← Walk.callNative 0 x cs
        Walk.room z.config.stackCapacity (low.length+1)
        return c) m (callNative x cs.length) fun c σ' _ m' =>
      σ'.locals = σ.locals ∧ m'.Shows p P z σ' (low++[c]) fs := by
  by_cases hroom : low.length+1 < z.config.stackCapacity
  · have hok : Walk.room z.config.stackCapacity (low.length+1) = pure () := if_pos hroom
    simp only [hok, pure_bind, bind_pure]
    exact callNative_follows hm hroom
  have hfull : Walk.room z.config.stackCapacity (low.length+1) =
    Walk.raise 0 (.stackOverflow z.config.stackCapacity) := if_neg hroom
  have hcells := hm.room
  rw [List.length_append, List.length_cons] at hcells
  obtain rfl : cs = [] := List.length_eq_zero_iff.mp (by omega)
  rw [hfull, Walk.callNative, bind_assoc]
  refine (global_follows hm.toPresents x).bind ?_
  rintro c σ v m ⟨⟨rfl, rfl, hv⟩, _⟩
  refine .skip (object_eq_ok hv) ?_
  cases c with
  | native r n =>
    simp only [Content.object?]
    split
    · next hne =>
      rw [native_eq_raise hne]
      exact .raise rfl hm.toPresents
    · next heq =>
      obtain rfl : n = .input := by cases n <;> first | rfl | exact absurd heq (by decide)
      have hsize := hm.length_eq
      rw [List.length_append, List.length_singleton] at hsize
      refine .skip rfl ?_
      rw [if_neg (by simp only [List.length_nil]; omega)]
      -- the line is read before there is seen to be no room
      have hnative : Follows 0 σ
          (do
            let c ← Walk.native 0 x .input []
            Walk.raise 0 (.stackOverflow z.config.stackCapacity)
            return c) m (runNative .input) fun _ _ _ _ => False := by
        rw [Walk.native, bind_assoc]
        refine (readLine_follows hm).bind ?_
        rintro s σ' t m' ⟨rfl, _, hm'⟩
        have hconfig := hm'.counted.config
        have hsize := hm'.length_eq
        rw [List.length_append, List.length_singleton] at hsize
        have hpush := pushText_full (m := m') (by rw [hconfig]; omega) t
        rw [hconfig] at hpush
        exact .raise hpush hm'.toPresents
      exact .congr (congrFun (bind_pure _).symm σ) (hnative.bind fun _ _ _ _ h => h.elim)
  | none | number | bool | text | runnable => exact .raise rfl hm.toPresents

theorem callNative_lands {count : Nat} (hm : Spot.script.Shown p P z ip' st.reverse σ m)
    (x : String) (hneeds : count+1 ≤ st.length) (hgoes : (Deed.callNative x count).goes false ip = ip') :
    Follows 0 σ ((Deed.callNative x count).act z.config.stackCapacity st) m (callNative x count)
      ((Deed.callNative x count).Lands p P z ip) := by
  have hsplit : st = st.take count++st.drop count := (List.take_append_drop count st).symm
  obtain ⟨d, below, hbelow⟩ : ∃ d below, st.drop count = d :: below :=
    List.exists_cons_of_length_pos (by rw [List.length_drop]; omega)
  have hrest : st.drop (count+1) = below := by rw [← List.drop_drop, hbelow]; rfl
  have hcount : (st.take count).reverse.length = count := by
    rw [List.length_reverse, List.length_take]
    omega
  have hlength : st.length-count = below.reverse.length+1 := by
    rw [← List.length_drop, hbelow, List.length_cons, List.length_reverse]
  rw [hsplit, List.reverse_append, hbelow, List.reverse_cons, List.append_assoc, List.singleton_append] at hm
  simp only [Deed.act, hrest, hlength]
  have h := callNative_room (x := x) hm.over
  rw [hcount, Store.length_script hm.1] at h
  refine h.map (g := fun c => (false, c :: below)) ?_ ?_
  · simp only [bind_assoc, pure_bind]
  · rintro c σ' _ m' ⟨hlocals, hm'⟩
    exact lands_top (hm.next hlocals hm') hgoes

theorem jumpIf_lands {n : Nat} (truth : Bool) (hn : n < 0x10000)
    (hhigh : f.chunk.code[ip+1]? = some (Word.high (UInt16.ofNat n)))
    (hlow : f.chunk.code[ip+1+1]? = some (Word.low (UInt16.ofNat n)))
    (hm : Spot.script.Shown p P z (ip+1) (c :: st).reverse σ m) :
    Follows 0 σ ((Deed.jumpIf truth n).act z.config.stackCapacity (c :: st)) m
      (execute p 0 f (.jumpIf truth)) ((Deed.jumpIf truth n).Lands p P z ip) := by
  have hword : (UInt16.ofNat n).toNat = n := by simpa using hn
  rw [List.reverse_cons] at hm
  have hjump : Follows 0 σ (pure ()) m _ _ := execute_jumpIf hhigh hlow hm truth
  obtain ⟨_, m', hx, hm'⟩ := hjump
  refine .done hx ?_
  rw [hword] at hm'
  unfold Deed.Lands
  rw [List.reverse_cons]
  by_cases htruth : c.isTruthy = truth
  · rw [if_pos htruth] at hm'
    rw [htruth, beq_self_eq_true]
    exact hm'
  · rw [if_neg htruth] at hm'
    rw [show (c.isTruthy == truth) = false by simpa using htruth]
    exact hm'

/-- The counter is taken off the stack behind the last pass, and one less before any other. -/
theorem endRepeat_lands (hm : Spot.script.Shown p P z (ip+1) (c :: st).reverse σ m) :
    Follows 0 σ (Deed.endRepeat.act z.config.stackCapacity (c :: st)) m (execute p 0 f .endRepeat)
      (Deed.endRepeat.Lands p P z ip) := by
  rw [List.reverse_cons] at hm
  obtain ⟨w, hpeek, hw⟩ := hm.peek
  refine .skip hpeek ?_
  cases c with
  | number n =>
    obtain rfl := Heap.eq_number_of_content? hw
    simp only [Deed.act]
    cases hend : (n.sub (.ofInt 1)).less .zero || (n.sub (.ofInt 1)).same .zero with
    | true =>
      obtain ⟨m₁, hpop, hm₁⟩ := hm.pop
      obtain ⟨m₂, hset, hm₂⟩ := hm₁.setIp (ip+1+Opcode.loop.width)
      exact .skip hpop (.skip hm₁.frame (.done hset hm₂))
    | false =>
      obtain ⟨m₁, hreplace, hm₁⟩ := replaceTop_shows
        (loosen (v := .number (n.sub (.ofInt 1))) hm.over rfl (by simp))
      exact .done hreplace (lands_top (hm.next rfl hm₁) rfl)
  | _ =>
    cases w with
    | number n => cases hw
    | _ => exact .raise rfl hm.2.toPresents

/-- A turn does what the deed does. -/
theorem execute_follows (h : p.Says d e) (hm : Spot.script.Shown p P z (ip+1) st.reverse σ m)
    (hf : p.function? 0 = some f) (hcode : Holds f.chunk.code ip d.bytes)
    (hneeds : e.needs ≤ st.length) (hback : ∀ n, e = .back n → n ≤ ip+3) :
    Follows 0 σ (e.act z.config.stackCapacity st) m (execute p 0 f d.op) (e.Lands p P z ip) := by
  have hlocals : σ.locals = [] := List.map_eq_nil_iff.mp hm.1
  obtain ⟨_, hoperand⟩ := holds_cons.mp hcode
  cases h with
  | newline => exact .done rfl hm
  | pop =>
    obtain ⟨c, st, rfl⟩ := List.exists_cons_of_length_pos hneeds
    rw [List.reverse_cons] at hm
    obtain ⟨m', hpop, hm'⟩ := hm.pop
    exact .done hpop hm'
  | constant hk hc =>
    obtain ⟨hbyte, _⟩ := holds_cons.mp hoperand
    obtain ⟨m₁, hread, hm₁⟩ := hm.readByte hbyte
    obtain ⟨w, hconstant, hmatches⟩ := hm₁.constant hk
    have hw := content?_of_constant hmatches hc
    exact .skip hread (.skip hconstant (push_lands hm₁.2 hlocals hw rfl))
  | literal value =>
    cases value with
    | none => exact push_lands (v := .none) hm.2 hlocals rfl rfl
    | some b => exact push_lands (v := .bool b) hm.2 hlocals rfl rfl
  | operator op =>
    obtain ⟨b, a, st, rfl⟩ := Deed.exists_two hneeds
    rw [List.reverse_cons, List.reverse_cons, List.append_assoc] at hm
    exact (execute_operator hm op).map rfl fun c σ' _ m' hm' => lands_top hm' rfl
  | test t =>
    obtain ⟨b, a, st, rfl⟩ := Deed.exists_two hneeds
    rw [List.reverse_cons, List.reverse_cons, List.append_assoc] at hm
    refine (execute_test hm t).map ?_ fun c σ' _ m' hm' => lands_top hm' rfl
    simp only [bind_assoc, pure_bind]
    rfl
  | unary u =>
    obtain ⟨c, st, rfl⟩ := List.exists_cons_of_length_pos hneeds
    rw [List.reverse_cons] at hm
    exact (execute_unary hm u).map rfl fun c σ' _ m' hm' => lands_top hm' (by cases u <;> rfl)
  | define hk =>
    obtain ⟨hbyte, _⟩ := holds_cons.mp hoperand
    obtain ⟨c, st, rfl⟩ := List.exists_cons_of_length_pos hneeds
    rw [List.reverse_cons] at hm
    exact (execute_define hm hf hk hbyte).map rfl fun _ σ' _ m' hm' => hm'
  | get hk =>
    obtain ⟨hbyte, _⟩ := holds_cons.mp hoperand
    obtain ⟨m₁, hread, hm₁⟩ := hm.identifier hbyte (identifier?_of_constant? (q := .script) hf hk)
    refine .skip hread ((global_follows hm₁.2.toPresents _).bind ?_)
    rintro c σ w m ⟨⟨rfl, rfl, hw⟩, _⟩
    exact push_lands hm₁.2 hlocals hw rfl
  | assign a hk =>
    rw [Directive.op_assign]
    rw [Directive.bytes_assign] at hcode
    exact execute_assign a hk hm hf (holds_cons.mp (holds_cons.mp hcode).2).1 hneeds
  | callNative n hk =>
    obtain ⟨hbyte, hcount⟩ := holds_cons.mp hoperand
    obtain ⟨hcount, _⟩ := holds_cons.mp hcount
    obtain ⟨m₁, hread, hm₁⟩ := hm.identifier hbyte (identifier?_of_constant? (q := .script) hf hk)
    obtain ⟨m₂, hread', hm₂⟩ := hm₁.readByte hcount
    have harity : (UInt8.ofNat n.arity).toNat = n.arity := by cases n <;> rfl
    refine .skip hread (.skip hread' ?_)
    rw [harity]
    exact callNative_lands hm₂ _ hneeds rfl
  | @jump n hn =>
    obtain ⟨hhigh, hlow⟩ := holds_cons.mp hoperand
    have hword : (UInt16.ofNat n).toNat = n := by simpa using hn
    have hjump : Follows 0 σ (pure ()) m _ _ := execute_jump hhigh (holds_cons.mp hlow).1 hm
    obtain ⟨_, m', hx, hm'⟩ := hjump
    rw [hword] at hm'
    exact .done hx hm'
  | @jumpIf truth n hn =>
    obtain ⟨hhigh, hlow⟩ := holds_cons.mp hoperand
    obtain ⟨c, st, rfl⟩ := List.exists_cons_of_length_pos hneeds
    exact jumpIf_lands truth hn hhigh (holds_cons.mp hlow).1 hm
  | @back n hn =>
    obtain ⟨hhigh, hlow⟩ := holds_cons.mp hoperand
    have hword : (UInt16.ofNat n).toNat = n := by simpa using hn
    have hle := hback n rfl
    have hloop : Follows 0 σ (pure ()) m _ _ :=
      execute_loop hhigh (holds_cons.mp hlow).1 hm (by omega)
    obtain ⟨_, m', hx, hm'⟩ := hloop
    rw [hword] at hm'
    exact .done hx hm'
  | repeat_ =>
    obtain ⟨c, st, rfl⟩ := List.exists_cons_of_length_pos hneeds
    rw [List.reverse_cons] at hm
    exact (execute_repeat hm).map rfl fun n σ' _ m' hm' => lands_top hm'.2 rfl
  | endRepeat =>
    obtain ⟨c, st, rfl⟩ := List.exists_cons_of_length_pos hneeds
    exact endRepeat_lands hm

end Exec
end RatScript
