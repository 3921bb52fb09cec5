import RatScript.Proofs.Machine.Session
import RatScript.Proofs.Meaning.Standing

/-!
Expressions in any machine: what the globals and the cells of a call say of the variables that code
in a view mentions, and that the code of an expression does with them what evaluating the expression
does. Cells without a name and cells that are not there yet are in nobody's way.
-/

namespace RatScript

open Stateful Machine
open Directive (size encode)

namespace View

variable {v : View} {base : Nat} {cells : List Content} {x y : String}

/-- Locals in the order of their slots; the script has none. -/
def slots (v : View) : List (Option String) := if v.function = 0 then [] else v.locals.reverse

/-- The named locals with the contents of their cells, newest first. -/
def held (v : View) (base : Nat) (cells : List Content) : List (String × Content) :=
  ((v.slots.zip (cells.drop (base+1))).filterMap fun l => l.1.map (·, l.2)).reverse

theorem slot?_eq (v : View) (x : String) :
    v.slot? x = (slotIn x v.slots.reverse).map UInt8.ofNat := by
  unfold slot? slots
  by_cases h : v.function = 0 <;> simp [h, slotIn]

/-- Newer locals without a cell do not hide one that has a cell. -/
theorem slotIn_drop {locals : List (Option String)} {n : Nat}
    (h : ∀ k, slotIn x locals = some k → k+n < locals.length) :
    slotIn x (locals.drop n) = slotIn x locals := by
  induction n generalizing locals with
  | zero => rfl
  | succ n ih =>
    cases locals with
    | nil => rfl
    | cons l older =>
      rw [List.drop_succ_cons, slotIn]
      simp only [slotIn, List.length_cons] at h
      split
      · next heq =>
        have h := h older.length (if_pos heq)
        omega
      · next hne =>
        simp only [if_neg hne] at h
        exact ih fun k hk => by have := h k hk; omega

/-- Cells without a name may get one that is not looked for. -/
theorem slotIn_named (h : x ≠ y) (locals : List (Option String)) :
    slotIn x (locals.map fun l => some (l.getD y)) = slotIn x locals := by
  induction locals with
  | nil => rfl
  | cons l older ih =>
    rw [List.map_cons, slotIn, slotIn, List.length_map, ih]
    cases l with
    | none => simp [Ne.symm h]
    | some z => rfl

/-- Contents of named cells, once those that got the name `y` are left out. -/
theorem filter_named (slots : List (Option String)) (hy : some y ∉ slots)
    {locals : List (String × Content)} {rest : List Content}
    (hnames : locals.map Prod.fst = (slots.take locals.length).map (·.getD y))
    (hrest : rest = [] ∨ locals.length = slots.length) :
    (slots.zip (locals.map Prod.snd++rest)).filterMap (fun l => l.1.map (·, l.2)) =
      locals.filter (·.1 != y) := by
  induction slots generalizing locals with
  | nil =>
    cases locals with
    | nil => rfl
    | cons => cases hnames
  | cons s slots ih =>
    cases locals with
    | nil =>
      obtain rfl : rest = [] := hrest.resolve_right (by simp)
      rfl
    | cons l locals =>
      obtain ⟨z, c⟩ := l
      simp only [List.mem_cons, not_or] at hy
      simp only [List.map_cons, List.length_cons, List.take_succ_cons, List.cons.injEq] at hnames
      have ih := ih hy.2 hnames.2 (hrest.imp_right fun h => by simpa using h)
      rw [List.map_cons, List.cons_append, List.zip_cons_cons, List.filterMap_cons]
      cases s with
      | none =>
        obtain rfl : z = y := hnames.1
        rw [List.filter_cons_of_neg (by simp)]
        exact ih
      | some s =>
        obtain rfl : z = s := hnames.1
        have hne : z ≠ y := fun heq => hy.1 (by rw [heq])
        rw [List.filter_cons_of_pos (by simpa using hne)]
        exact congrArg ((z, c) :: ·) ih

end View

namespace Machine

/-- Contents of the stack, from the bottom up. -/
def contents (m : Machine) : List Content := m.stack.toList.filterMap m.heap.content?

/-- The variables that code in the view finds in the machine, if cells have the given contents. -/
def store (m : Machine) (v : View) (base : Nat) (cells : List Content) : Store where
  globals x := (m.globals.get? x).bind m.heap.content?
  locals := v.held base cells
  input := m.world.input
  output := m.world.output
  files := m.world.files
  visited := []

/-- The heap is sound and its counts are exact, the program is loaded, and a trace has all the room
it needs. -/
structure WellFormed (p : Program) (m : Machine) : Prop where
  counted : m.Counted (.basic m.config m.nativesBound m.heap.stats.swept) [] fun _ => True
  pools : List.Forall₂ m.heap.Pools m.pools.toList p.functions.toList
  traced : m.config.trace = true → m.world.diagnostics.limit = none

variable {p : Program} {m : Machine} {P : Array (Array Value)} {σ : Store} {st : List Content}
  {fs : List Frame}

theorem content?_of_held {z : Setting} {X : List Value} {S : Handle → Prop} (hm : m.Counted z X S)
    {v : Value} (hv : v ∈ m.held) : ∃ c, m.heap.content? v = some c := by
  cases v with
  | object r =>
    obtain ⟨l, hl⟩ := hm.live_of_held (List.mem_append_right _ hv)
    exact ⟨_, by rw [Heap.content?, Heap.object?, hl]; rfl⟩
  | none | number | bool => exact ⟨_, rfl⟩

theorem WellFormed.contents_eq (hm : m.WellFormed p) :
    m.stack.toList.map m.heap.content? = m.contents.map some := by
  have hall : ∀ v ∈ m.stack.toList, ∃ c, m.heap.content? v = some c := fun v hv =>
    content?_of_held hm.counted (List.mem_append_left _ (List.mem_append_left _ hv))
  unfold contents
  generalize m.stack.toList = vs at hall
  induction vs with
  | nil => rfl
  | cons v vs ih =>
    obtain ⟨c, hc⟩ := hall v (List.mem_cons_self ..)
    rw [List.map_cons, List.filterMap_cons, hc, List.map_cons,
      ih fun w hw => hall w (List.mem_cons_of_mem _ hw)]

theorem WellFormed.length_contents (hm : m.WellFormed p) : m.contents.length = m.stack.size := by
  have h := congrArg List.length hm.contents_eq
  simpa using h.symm

theorem WellFormed.presents (hm : m.WellFormed p) (v : View) (base : Nat) (cells : List Content) :
    m.Presents (m.store v base cells) := by
  refine ⟨fun x => ?_, rfl, rfl, rfl⟩
  cases hx : m.globals.get? x with
  | none => simp [store, hx]
  | some w =>
    have hw : w ∈ m.held := by
      obtain ⟨before, after, hsplit, _⟩ := List.lookup_eq_some_iff.mp hx
      exact List.mem_append_left _ (List.mem_append_right _ (by simp [hsplit]))
    obtain ⟨c, hc⟩ := content?_of_held hm.counted hw
    simp [store, hx, hc]

theorem WellFormed.shows (hm : m.WellFormed p) (v : View) (base : Nat) (cells : List Content) :
    m.Shows p m.pools (.basic m.config m.nativesBound m.heap.stats.swept) (m.store v base cells)
      m.contents m.frames where
  toPresents := hm.presents v base cells
  counted := hm.counted
  stack := hm.contents_eq
  transit := nofun
  loose := nofun
  image := rfl
  pools := hm.pools
  frames := rfl
  traced := hm.traced

theorem Shows.wellFormed {config : Config} {bound : Bool} {swept : Nat}
    (hm : m.Shows p P (.basic config bound swept) σ st fs) : m.WellFormed p where
  counted := by
    have hconfig : m.config = config := hm.counted.config
    have hbound : m.nativesBound = bound := hm.counted.bound
    have hswept : m.heap.stats.swept = swept := hm.counted.swept
    rw [hconfig, hbound, hswept]
    exact hm.counted
  pools := hm.image ▸ hm.pools
  traced := hm.traced

/-- A program that has just been loaded. -/
theorem Loaded.wellFormed {m' : Machine} (h : m.Loaded p m')
    (htraced : m.config.trace = true → m.world.diagnostics.limit = none) : m'.WellFormed p where
  counted := by
    have hconfig : m'.config = m.config := h.counted.config
    have hbound : m'.nativesBound = true := h.counted.bound
    have hswept : m'.heap.stats.swept = m.heap.stats.swept := h.counted.swept
    rw [hconfig, hbound, hswept]
    exact h.counted.mono fun _ _ => trivial
  pools := h.pools
  traced := by
    rw [show m'.config = m.config from h.counted.config, h.world]
    exact htraced

theorem Shows.contents_eq {z : Setting} (hm : m.Shows p P z σ st fs) : m.contents = st := by
  have h := congrArg (List.filterMap id) hm.stack
  simpa [List.filterMap_map, contents] using h

theorem Shows.store_eq {z : Setting} (hm : m.Shows p P z σ st fs) {v : View} {base : Nat}
    {cells : List Content} (hlocals : v.held base cells = σ.locals) (hvisited : σ.visited = []) :
    m.store v base cells = σ := by
  have hglobals : (fun x => (m.globals.get? x).bind m.heap.content?) = σ.globals := by
    funext x
    have hx := hm.globals x
    cases hg : m.globals.get? x <;> cases hs : σ.globals x <;> simp_all
  cases σ
  cases hvisited
  simp only [store, hlocals, hm.input, hm.output, hm.files] at hglobals ⊢
  rw [hglobals]

/-- A call in which code has run: the variables of the view are as in the store, and cells are as they
were except those of some variables. -/
structure Settled (p : Program) (v : View) (base : Nat) (callers : List Frame) (xs : List String)
    (before : List Content) (ip : Nat) (above : List Content) (σ : Store) (cells : List Content)
    (m : Machine) : Prop where
  wellFormed : m.WellFormed p
  frames : m.frames = ⟨v.function, ip, base⟩ :: callers
  contents : m.contents = cells++above
  store : m.store v base cells = σ
  length : cells.length = before.length
  others : ∀ i, (∀ x ∈ xs, ∀ slot ∈ v.slot? x, i ≠ base+slot.toNat+1) → cells[i]? = before[i]?

end Machine

theorem getElem?_between {α : Type} (under above : List α) {l l' : List α} {i : Nat}
    (hlength : l.length = l'.length)
    (h : ∀ k, i = under.length+k → k < l.length → l[k]? = l'[k]?) :
    (under++l++above)[i]? = (under++l'++above)[i]? := by
  simp only [List.getElem?_append, List.length_append, hlength]
  split
  · split
    · rfl
    · exact h _ (by omega) (by omega)
  · rfl

theorem map_fst_zip {α β : Type} (l : List α) (l' : List β) :
    (l.zip l').map Prod.fst = l.take l'.length := by
  rw [List.zip_eq_zip_take_min, List.map_fst_zip (by simp), List.take_eq_take_iff]
  omega

theorem map_snd_zip {α β : Type} (l : List α) (l' : List β) :
    (l.zip l').map Prod.snd = l'.take l.length := by
  rw [List.zip_eq_zip_take_min, List.map_snd_zip (by simp), List.take_eq_take_iff]
  omega

/-! The call as a spot, with a name for each of its cells. -/

namespace View

variable {v : View} {base : Nat} {callers : List Frame} {cells : List Content} {x y : String}

/-- The call in which code of the view is run; cells without a name get the name `y`. -/
def spot (v : View) (y : String) (base : Nat) (callers : List Frame) (cells : List Content) : Spot where
  function := v.function
  base := base
  callers := callers
  under := cells.take (base+1)
  names := ((v.slots.take (cells.length-(base+1))).map (·.getD y)).reverse

/-- What lies above the cells that have a slot. -/
def above (v : View) (base : Nat) (cells : List Content) : List Content :=
  (cells.drop (base+1)).drop v.slots.length

/-- Names and contents of the cells that have a slot. -/
def filled (v : View) (y : String) (base : Nat) (cells : List Content) : List (String × Content) :=
  ((v.slots.map (·.getD y)).zip (cells.drop (base+1))).reverse

/-- The view with these names. -/
def renamed (v : View) (y : String) (base : Nat) (cells : List Content) : View :=
  ⟨v.function, (v.spot y base [] cells).names.map some⟩

theorem length_slots_le (v : View) : v.slots.length ≤ v.locals.length := by
  unfold slots
  split <;> simp

theorem filled_names : (v.filled y base cells).map Prod.fst = (v.spot y base callers cells).names := by
  rw [filled, List.map_reverse, map_fst_zip, List.length_drop, ← List.map_take]
  rfl

theorem filled_cells : ((v.filled y base cells).map Prod.snd).reverse =
    (cells.drop (base+1)).take v.slots.length := by
  rw [filled, List.map_reverse, List.reverse_reverse, map_snd_zip, List.length_map]

/-- The cells are those of the spot. -/
theorem cells_eq : cells.take (base+1)++((v.filled y base cells).map Prod.snd).reverse++
    v.above base cells = cells := by
  rw [filled_cells, above, List.append_assoc, List.take_append_drop, List.take_append_drop]

/-- Whatever the cells of the spot are, the view finds its variables in them. -/
theorem held_eq (hbase : v.function ≠ 0 → base < cells.length) (hy : some y ∉ v.slots)
    {locals : List (String × Content)}
    (hnames : locals.map Prod.fst = (v.spot y base callers cells).names) :
    v.held base (cells.take (base+1)++(locals.map Prod.snd).reverse++v.above base cells) =
      locals.filter (·.1 != y) := by
  have hreverse : locals.reverse.map Prod.fst =
      (v.slots.take (cells.length-(base+1))).map (·.getD y) := by
    rw [List.map_reverse, hnames, spot, List.reverse_reverse]
  have hlength : locals.reverse.length = min (cells.length-(base+1)) v.slots.length := by
    have h := congrArg List.length hreverse
    simpa only [List.length_map, List.length_take] using h
  have hnamed : (v.slots.zip (locals.reverse.map Prod.snd++v.above base cells)).filterMap
      (fun l => l.1.map (·, l.2)) = locals.reverse.filter (·.1 != y) := by
    refine filter_named v.slots hy ?_ ?_
    · rw [hreverse, hlength, ← List.take_eq_take_min]
    · rw [hlength, above, List.drop_eq_nil_iff, List.length_drop]
      omega
  have hzip : v.slots.zip ((cells.take (base+1)++(locals.map Prod.snd).reverse++
      v.above base cells).drop (base+1)) =
      v.slots.zip (locals.reverse.map Prod.snd++v.above base cells) := by
    by_cases hscript : v.function = 0
    · simp [slots, hscript]
    · have hunder : (cells.take (base+1)).length = base+1 := by
        have := hbase hscript
        rw [List.length_take]
        omega
      rw [List.append_assoc, List.drop_append_of_le_length (by omega), List.drop_eq_nil_of_le
        (by omega), List.nil_append, List.map_reverse]
  rw [held, hzip, hnamed, List.filter_reverse, List.reverse_reverse]

theorem spot_sees (hbase : v.function ≠ 0 → base < cells.length) (hfew : v.locals.length ≤ 256) :
    (v.spot y base callers cells).Sees (v.renamed y base cells) where
  function := rfl
  script h := by
    have h : v.function = 0 := h
    simp [spot, slots, h]
  base h := by
    have := hbase h
    simp only [spot, List.length_take]
    omega
  locals _ := ⟨0, rfl⟩
  few := by
    have := v.length_slots_le
    simp only [spot, List.length_reverse, List.length_map, List.length_take]
    omega

/-- A variable with a cell has the slot that it has in the view. -/
theorem slotIn_spot (hx : x ≠ y) (hfew : v.locals.length ≤ 256)
    (hcell : ∀ slot ∈ v.slot? x, base+slot.toNat+1 < cells.length) :
    slotIn x ((v.spot y base callers cells).names.map some) = slotIn x v.slots.reverse := by
  have hnames : (v.spot y base callers cells).names.map some =
      (v.slots.reverse.drop (v.slots.length-(cells.length-(base+1)))).map
        fun l => some (l.getD y) := by
    rw [spot, ← List.reverse_take, List.map_reverse, List.map_reverse, List.map_map]
    rfl
  rw [hnames, slotIn_named hx]
  apply slotIn_drop
  intro k hk
  have hlt := slotIn_lt hk
  have hslots := v.length_slots_le
  rw [List.length_reverse] at hlt ⊢
  have hheld := hcell (.ofNat k) (by rw [slot?_eq, hk]; rfl)
  rw [UInt8.toNat_ofNat'] at hheld
  omega

theorem slot?_renamed (hx : x ≠ y) (hfew : v.locals.length ≤ 256)
    (hcell : ∀ slot ∈ v.slot? x, base+slot.toNat+1 < cells.length) :
    (v.renamed y base cells).slot? x = v.slot? x := by
  have hspot : slotIn x ((v.spot y base [] cells).names.map some) = slotIn x v.slots.reverse :=
    slotIn_spot hx hfew hcell
  rw [v.slot?_eq, ← hspot, slot?, renamed]
  split
  · rfl
  · next h =>
    have h : v.function = 0 := by simpa using h
    simp [spot, slots, h, slotIn]

end View

theorem View.Refers.of_slot {p : Program} {v w : View} {x : String} {scope : Scope} {i : UInt8}
    (h : v.Refers p x scope i) (hfunction : w.function = v.function) (hx : w.slot? x = v.slot? x) :
    w.Refers p x scope i := by
  cases h with
  | frame hs => exact .frame (hx.trans hs)
  | global hs hc => exact .global (hx.trans hs) (hfunction ▸ hc)

/-- Code depends on the slots of the variables that are mentioned. -/
theorem Expr.Codes.of_slots {p : Program} {v w : View} {k : ExprKind} {e : Expr k} {c : Phrase}
    (he : e.Codes p v c) (hfunction : w.function = v.function)
    (hslots : ∀ x ∈ e.names, w.slot? x = v.slot? x) : e.Codes p w c := by
  induction he with
  | number hv hc => exact .number hv (hfunction ▸ hc)
  | text hc => exact .text (hfunction ▸ hc)
  | literal value => exact .literal value
  | group _ ih => exact .group (ih hslots)
  | unary _ ih => exact .unary (ih hslots)
  | name hx => exact .name (hx.of_slot hfunction (hslots _ (by simp [names])))
  | count hx => exact .count (hx.of_slot hfunction (hslots _ (by simp [names])))
  | assign hx _ ih =>
    exact .assign (hx.of_slot hfunction (hslots _ (by simp [names])))
      (ih fun y hy => hslots y (by simp [names, hy]))
  | call hx hcallee hcount _ ih => exact .call (hfunction ▸ hx) hcallee hcount (ih hslots)
  | callNative hx hnative hcount _ ih => exact .callNative (hfunction ▸ hx) hnative hcount (ih hslots)
  | head _ ih => exact .head (ih hslots)
  | operator _ _ ihl ihr =>
    exact .operator (ihl fun y hy => hslots y (List.mem_append_left _ hy))
      (ihr fun y hy => hslots y (List.mem_append_right _ hy))
  | comparison _ _ ihl ihr =>
    exact .comparison (ihl fun y hy => hslots y (List.mem_append_left _ hy))
      (ihr fun y hy => hslots y (List.mem_append_right _ hy))
  | and _ _ hfit ihl ihr =>
    exact .and (ihl fun y hy => hslots y (List.mem_append_left _ hy))
      (ihr fun y hy => hslots y (List.mem_append_right _ hy)) hfit
  | or _ _ hfit ihl ihr =>
    exact .or (ihl fun y hy => hslots y (List.mem_append_left _ hy))
      (ihr fun y hy => hslots y (List.mem_append_right _ hy)) hfit
  | nil => exact .nil
  | cons _ _ ihe ihrest =>
    exact .cons (ihe fun y hy => hslots y (List.mem_append_left _ hy))
      (ihrest fun y hy => hslots y (List.mem_append_right _ hy))

section
variable {p : Program} {v : View} {e : Expr .operand} {c : Phrase} {f : Function} {m m' : Machine}
  {offset base ip : Nat} {callers : List Frame} {y : String} {cells temps : List Content} {τ : Store}
  {xs : List String}

/-- The variables, with the name `y` for cells without one. -/
def Machine.filled (m : Machine) (v : View) (y : String) (base : Nat) : Store :=
  {m.store v base m.contents with locals := v.filled y base m.contents}

theorem Machine.filled_without (hbase : v.function ≠ 0 → base < m.contents.length)
    (hy : some y ∉ v.slots) : (m.filled v y base).without y = m.store v base m.contents := by
  have hnames : (v.filled y base m.contents).map Prod.fst = (v.spot y base [] m.contents).names :=
    View.filled_names
  have hheld := View.held_eq hbase hy hnames
  rw [View.cells_eq] at hheld
  simp only [filled, Store.without, store, hheld]

theorem Machine.WellFormed.shown (hm : m.WellFormed p)
    (hframes : m.frames = ⟨v.function, offset, base⟩ :: callers) :
    (v.spot y base callers m.contents).Shown p m.pools
      (.basic m.config m.nativesBound m.heap.stats.swept) offset (v.above base m.contents)
      (m.filled v y base) m := by
  refine ⟨View.filled_names, ?_⟩
  have hcells : (v.spot y base callers m.contents).under++(m.filled v y base).cells++
      v.above base m.contents = m.contents := View.cells_eq
  rw [hcells]
  exact {hm.shows v base m.contents with
    frames := hframes
    globals := (hm.presents v base m.contents).globals
    input := rfl
    output := rfl
    files := rfl}

/-- Where the call stands is where its code has come. -/
theorem Spot.Shown.settled {P : Array (Array Value)} {config : Config} {bound : Bool} {swept : Nat}
    (hm : (v.spot y base callers m.contents).Shown p P (.basic config bound swept) ip
      (v.above base m.contents++temps) τ m')
    (hbase : v.function ≠ 0 → base < m.contents.length) (hy : some y ∉ v.slots)
    (hspares : Store.Spares xs (m.filled v y base) τ) (hxs : y ∉ xs) (hfew : v.locals.length ≤ 256)
    (hcells : ∀ x ∈ xs, ∀ slot ∈ v.slot? x, base+slot.toNat+1 < m.contents.length) :
    m'.Settled p v base callers xs m.contents ip temps (τ.without y)
      (m.contents.take (base+1)++τ.cells++v.above base m.contents) := by
  obtain ⟨hnames, hshows⟩ := hm
  have hlength : τ.cells.length = (m.filled v y base).cells.length := by
    have h := congrArg List.length hspares.names
    simpa only [Store.length_cells, List.length_map] using h
  have hbefore : m.contents.take (base+1)++(m.filled v y base).cells++v.above base m.contents =
      m.contents := View.cells_eq
  refine ⟨hshows.wellFormed, hshows.frames, ?_, ?_, ?_, fun i hi => ?_⟩
  · rw [hshows.contents_eq, List.append_assoc _ _ temps]
    rfl
  · have hshows' : m'.Shows p P (.basic config bound swept) (τ.without y)
        ((v.spot y base callers m.contents).under++τ.cells++(v.above base m.contents++temps))
        (⟨v.function, ip, base⟩ :: callers) :=
      {hshows with
        globals := hshows.globals
        input := hshows.input
        output := hshows.output
        files := hshows.files}
    exact hshows'.store_eq (View.held_eq hbase hy hnames) hspares.visited
  · rw [← congrArg List.length hbefore]
    simp only [List.length_append, hlength]
  · have hsame := getElem?_between (m.contents.take (base+1)) (v.above base m.contents) (i := i) hlength ?_
    · rw [hsame, hbefore]
    intro k hk hlt
    refine hspares.cells k fun x hx hslot => ?_
    have hne : x ≠ y := fun heq => hxs (heq ▸ hx)
    have hnames : (m.filled v y base).locals.map Prod.fst = (v.spot y base callers m.contents).names :=
      View.filled_names
    rw [hnames, View.slotIn_spot hne hfew (hcells x hx)] at hslot
    have hplace := hi x hx (.ofNat k) (by rw [View.slot?_eq, hslot]; rfl)
    have hslots := View.slotIn_lt hslot
    have hunder : (m.contents.take (base+1)).length = base+1 := by
      have hfunction : v.function ≠ 0 := by
        intro h
        simp [View.slots, h] at hslots
      have := hbase hfunction
      rw [List.length_take]
      omega
    have := v.length_slots_le
    rw [List.length_reverse] at hslots
    rw [UInt8.toNat_ofNat'] at hplace
    omega

/-- The code of an expression stands at the offset that the innermost call has come to; the call holds
the cells of the variables in it, and there is room for what it computes. -/
structure Machine.Ready (p : Program) (v : View) (e : Expr .operand) (c : Phrase) (offset base : Nat)
    (callers : List Frame) (m : Machine) : Prop where
  codes : e.Codes p v c
  few : v.locals.length ≤ 256
  code : ∃ f, p.function? v.function = some f ∧ Holds f.chunk.code offset (encode c.directives)
  wellFormed : m.WellFormed p
  frames : m.frames = ⟨v.function, offset, base⟩ :: callers
  based : v.function ≠ 0 → base < m.stack.size
  held : ∀ x ∈ e.names, ∀ slot ∈ v.slot? x, base+slot.toNat+1 < m.stack.size
  room : m.stack.size+e.cells ≤ m.config.stackCapacity

/-- The run does what the evaluation does with all cells that have a slot, those without a name under
the name `y`. -/
theorem Machine.Ready.computes (hm : m.Ready p v e c offset base callers) (hcalls : e.calls = [])
    (hnames : y ∉ e.names) (hslots : some y ∉ v.slots) (line : Nat) :
    match e.eval line (m.filled v y base) with
    | .ok r τ => ∃ n m', m.runFor p n = (.running, m') ∧
        m'.Settled p v base callers e.targets m.contents (offset+size c.directives) [r] (τ.without y)
          (m.contents.take (base+1)++τ.cells++v.above base m.contents)
    | .error (.failed g) τ => ∃ n m' ip temps failed,
        m.runFor p n = (.failed ⟨g.fault, failed⟩, m') ∧
        m'.Settled p v base callers e.targets m.contents ip temps (τ.without y)
          (m.contents.take (base+1)++τ.cells++v.above base m.contents)
    | .error .tired _ => False := by
  obtain ⟨he, hfew, ⟨f, hf, hcode⟩, hm, hframes, hbase, hcells, hroom⟩ := hm
  rw [← hm.length_contents] at hbase hcells hroom
  have hcode' : e.Codes p (v.renamed y base m.contents) c := he.of_slots rfl fun x hx =>
    View.slot?_renamed (fun heq => hnames (heq ▸ hx)) hfew (hcells x hx)
  have hspot : (v.spot y base callers m.contents).Room
      (.basic m.config m.nativesBound m.heap.stats.swept) (v.above base m.contents) e.cells := by
    have hshown : (v.spot y base callers m.contents).Shown .. := hm.shown hframes
    have hlength := hshown.2.length_eq
    have hnamed := congrArg List.length hshown.1
    simp only [List.length_append, Store.length_cells, List.length_map] at hlength hnamed
    rw [← hm.length_contents] at hlength
    unfold Spot.Room
    change _ ≤ m.config.stackCapacity
    omega
  have hcomputes := hcode'.computes (View.spot_sees hbase hfew) hcalls hf hcode hspot line
    (m.filled v y base) ⟨0, m, rfl, hm.shown hframes⟩
  have hspares := (e.eval_spares hcalls (List.Subset.refl e.targets) line).keeps (m.filled v y base)
  have hsettled {P : Array (Array Value)} {ip : Nat} {temps : List Content} {τ : Store} {m' : Machine}
      (hspares : Store.Spares e.targets (m.filled v y base) τ)
      (hm' : (v.spot y base callers m.contents).Shown p P
        (.basic m.config m.nativesBound m.heap.stats.swept) ip (v.above base m.contents++temps) τ m') :=
    hm'.settled hbase hslots hspares (fun h => hnames (Expr.mem_names_of_targets h))
      hfew fun x hx => hcells x (Expr.mem_names_of_targets hx)
  cases heval : e.eval line (m.filled v y base) with
  | ok r τ =>
    rw [heval] at hcomputes
    obtain ⟨n, m', hrun, hm'⟩ := hcomputes
    exact ⟨n, m', hrun, hsettled (after_of_ok heval ▸ hspares) hm'⟩
  | error s τ =>
    rw [heval] at hcomputes
    cases s with
    | failed g =>
      obtain ⟨n, m', ip, temps, failed, hrun, hm'⟩ := hcomputes
      exact ⟨n, m', ip, temps, failed, hrun, hsettled (after_of_error heval ▸ hspares) hm'⟩
    | tired => exact hcomputes

/-- A name that neither an expression nor a view has. -/
theorem View.exists_fresh (v : View) (names : List String) : ∃ y, y ∉ names ∧ some y ∉ v.slots := by
  obtain ⟨y, hy⟩ := Infinite.exists_notMem_finset (names++v.slots.filterMap id).toFinset
  simp only [List.mem_toFinset, List.mem_append, not_or, List.mem_filterMap, id, exists_eq_right]
    at hy
  exact ⟨y, hy⟩

/-- The code of an expression without calls, wherever it stands and whatever else is there, gets just
behind itself with the value of the expression on top of the stack, or fails as the expression does;
the variables are then as evaluating the expression leaves them, and nothing else has changed. -/
theorem Expr.Codes.computes_anywhere (he : e.Codes p v c) (hcalls : e.calls = [])
    (hfew : v.locals.length ≤ 256) (hf : p.function? v.function = some f)
    (hcode : Holds f.chunk.code offset (encode c.directives)) (hm : m.WellFormed p)
    (hframes : m.frames = ⟨v.function, offset, base⟩ :: callers)
    (hbase : v.function ≠ 0 → base < m.stack.size)
    (hcells : ∀ x ∈ e.names, ∀ slot ∈ v.slot? x, base+slot.toNat+1 < m.stack.size)
    (hroom : m.stack.size+e.cells ≤ m.config.stackCapacity) (line : Nat) :
    match e.eval line (m.store v base m.contents) with
    | .ok r σ => ∃ n m' cells, m.runFor p n = (.running, m') ∧
        m'.Settled p v base callers e.targets m.contents (offset+size c.directives) [r] σ cells
    | .error (.failed g) σ => ∃ n m' cells ip temps failed,
        m.runFor p n = (.failed ⟨g.fault, failed⟩, m') ∧
        m'.Settled p v base callers e.targets m.contents ip temps σ cells
    | .error .tired _ => False := by
  obtain ⟨y, hnames, hslots⟩ := v.exists_fresh e.names
  have hready : m.Ready p v e c offset base callers :=
    ⟨he, hfew, ⟨f, hf, hcode⟩, hm, hframes, hbase, hcells, hroom⟩
  have hcomputes := hready.computes hcalls hnames hslots line
  have hignores := (e.eval_ignores hcalls hnames line).ignores (m.filled v y base)
  rw [← hm.length_contents] at hbase
  rw [Machine.filled_without hbase hslots] at hignores
  rw [hignores]
  cases heval : e.eval line (m.filled v y base) with
  | ok r τ =>
    rw [heval] at hcomputes
    obtain ⟨n, m', hrun, hm'⟩ := hcomputes
    exact ⟨n, m', _, hrun, hm'⟩
  | error s τ =>
    rw [heval] at hcomputes
    cases s with
    | failed g =>
      obtain ⟨n, m', ip, temps, failed, hrun, hm'⟩ := hcomputes
      exact ⟨n, m', _, ip, temps, failed, hrun, hm'⟩
    | tired => exact hcomputes

/-- Two texts are joined, and as the result is not false, nothing is looked up. -/
def choice : Expr .operand :=
  .join (.join (.head (.text "ra")) (.operator .add) (.head (.text "t"))) .or (.head (.name "whisker"))

/-- A script of that expression. -/
def choosing : Program where
  functions := #[{
    name := "<script>"
    arity := 0
    locals := #[]
    chunk := {
      code := #[2, 0, 2, 1, 7, 51, 0, 3, 6, 23, 2, 6]
      constants := #[.text "ra", .text "t", .text "whisker"] }
    enclosing := none
    lineCount := 0 }]

theorem choice_codes : choice.Codes choosing ⟨0, []⟩
    (.seq (.seq (.one (.constant 0)) (.seq (.one (.constant 1)) (.one (.plain (.operator .add) rfl))))
      (.either true (.one (.get .global 2)))) :=
  .or (.operator (.head (.text rfl)) (.head (.text rfl))) (.head (.name (.global rfl rfl))) (by decide)

theorem computes_anywhere_choice :
    ∃ m n m', Exec.load choosing (new {} quiet) = .ok () m ∧ m.runFor choosing n = (.running, m') ∧
      m'.contents = [.text "rat"] := by
  obtain ⟨m, hload, hm⟩ := load_ok (p := choosing) (by decide)
    (counted_new (S := fun _ => False) {} quiet) fun _ => rfl
  have hcode : Holds choosing.functions[0].chunk.code 0 (encode (Phrase.seq (.seq (.one (.constant 0))
      (.seq (.one (.constant 1)) (.one (.plain (.operator .add) rfl))))
      (.either true (.one (.get .global 2)))).directives) := ⟨[6], by decide⟩
  have hcomputes := choice_codes.computes_anywhere rfl (by decide) (f := choosing.functions[0]) rfl
    hcode (hm.wellFormed fun h => by cases h) hm.frames (by simp)
    (by simp [choice, Expr.names, View.slot?]) (by
      rw [hm.stack, show m.config = {} from hm.counted.config]
      decide) 1
  obtain ⟨n, m', cells, hrun, hsettled⟩ := hcomputes
  refine ⟨m, n, m', hload, hrun, ?_⟩
  have hcells : cells = [] := by
    have hlength := hsettled.length
    rwa [(hm.wellFormed fun h => by cases h).length_contents, hm.stack, Array.size_empty,
      List.length_eq_zero_iff] at hlength
  rw [hsettled.contents, hcells]
  rfl

end
end RatScript
