import TypedScript.Proofs.Evaluation.Calls
import TypedScript.Proofs.Heap.Emission
import TypedScript.Proofs.Lowering.Constructor
import TypedScript.Proofs.Machine.Regular

/-! # Initialization

What comes of a construction when it is run. Its object is put at the end of the heap. Where it is
stored under a name, the constructor is called on it, once, and the variable takes what that gives
back; in any other position its address is the value, and no constructor is called. -/

namespace TypedScript

variable {σ : Type} {m : Machine σ} {k : Spot} {ls : Bindings Word} {st : List Word}
  {code rest : List Instr} {s : Store σ} {a : Word} {ws : List Word} {results : Nat}

/-! ## Allocation -/

/-- A word that cannot be stored does not fit into memory. -/
theorem Store.size_lt_of_storeWord {b w : Word} {t : Trap} (h : s.storeWord b w = .error t) :
    s.memory.size < b.address + wordSize := by
  by_contra hfits
  obtain ⟨mem, hmem⟩ := Memory.store_of_fits (Nat.le_of_not_lt hfits) w
  rw [Store.storeWord, hmem] at h
  cases h

theorem Word.address_add_ofNat_le (w : Word) (n : Nat) :
    (w + Int32.ofNat n).address ≤ w.address + n := by
  rw [Word.address_add_ofNat_mod]
  exact Nat.mod_le _ _

/-- The heap has grown by an object at its old end. Where every address is a word, the object lies
in memory and holds its words. -/
structure Store.Grown (s : Store σ) (a : Word) (ws : List Word) (s' : Store σ) : Prop where
  globals : s'.globals =
    s.globals.insert Symbol.heapPointer (a + Int32.ofNat (ws.length * wordSize))
  allocated : s.memory.size < 2 ^ 32 → s.Allocated a ws s'

namespace Machine

/-- Words are written behind the end of the heap unless memory is full. -/
theorem after_writeWords_keeps (m : Machine σ) (k : Spot) (ls : Bindings Word) (st : List Word)
    (rest : List Instr) (ws : List Word) {i : Nat}
    (hh : s.globals.find? Symbol.heapPointer = some a) :
    (s.memory.size < a.address + (i + ws.length) * wordSize ∧
      ∃ r s', m.after (5 * ws.length) (.next (k.state ls st (writeWords i ws ++ rest) s)) =
        .halt r s') ∨
    ∃ s', m.after (5 * ws.length) (.next (k.state ls st (writeWords i ws ++ rest) s)) =
      .next (k.state ls st rest s') ∧ s.Keeps s' := by
  induction ws generalizing i s with
  | nil => exact .inr ⟨s, rfl, .refl s⟩
  | cons w ws ih =>
    have hcode : writeWords i (w :: ws) ++ rest =
        writeWords i [w] ++ (writeWords (i + 1) ws ++ rest) := by
      simp [writeWords]
    have hlen : 5 * (w :: ws).length = 5 + 5 * ws.length := by
      rw [List.length_cons]
      omega
    have hend : (i + (w :: ws).length) * wordSize = (i + 1 + ws.length) * wordSize := by
      rw [List.length_cons, Nat.add_assoc i 1, Nat.add_comm 1]
    rw [hcode, hlen, hend, after_add, after_writeWord hh]
    cases hstore : s.storeWord (a + Int32.ofNat (i * wordSize)) w with
    | error t =>
      refine .inl ⟨?_, _, s, after_halt⟩
      have hsize := Store.size_lt_of_storeWord hstore
      have haddress := a.address_add_ofNat_le (i * wordSize)
      have hsplit : (i + 1 + ws.length) * wordSize =
          i * wordSize + wordSize + ws.length * wordSize := by
        rw [Nat.add_mul, Nat.succ_mul]
      omega
    | ok s₁ =>
      have hkeeps := Store.Keeps.storeWord hstore
      rcases ih (s := s₁) (i := i + 1) (by rw [hkeeps.globals, hh]) with
        ⟨hfull, hhalt⟩ | ⟨s', hrun, hkeeps'⟩
      · exact .inl ⟨hkeeps.size ▸ hfull, hhalt⟩
      · exact .inr ⟨s', hrun, hkeeps.trans hkeeps'⟩

/-- An allocation traps because memory is full, or the heap grows. -/
theorem allocation_grows (m : Machine σ) (k : Spot) (ls : Bindings Word) (st : List Word)
    (rest : List Instr) (ws : List Word) (hh : s.globals.find? Symbol.heapPointer = some a) :
    (s.memory.size < a.address + ws.length * wordSize ∧
      ∃ r s', m.after (allocation ws).length (.next (k.state ls st (allocation ws ++ rest) s)) =
        .halt r s') ∨
    ∃ s', m.after (allocation ws).length (.next (k.state ls st (allocation ws ++ rest) s)) =
      .next (k.state ls (a :: st) rest s') ∧ s.Grown a ws s' := by
  have hrun : m.after (allocation ws).length (.next (k.state ls st (allocation ws ++ rest) s)) =
      m.after 5 (m.after (5 * ws.length)
        (.next (k.state ls st (writeWords 0 ws ++ (moveHeap ws.length ++ rest)) s))) := by
    rw [length_allocation, after_add, allocation, List.append_assoc]
  rcases after_writeWords_keeps m k ls st (moveHeap ws.length ++ rest) ws (i := 0) hh with
    ⟨hfull, r, s', hhalt⟩ | ⟨s₁, hwrite, hkeeps⟩
  · rw [Nat.zero_add] at hfull
    rw [hhalt, after_halt] at hrun
    exact .inl ⟨hfull, r, s', hrun⟩
  have hheap : s₁.globals.find? Symbol.heapPointer = some a := by rw [hkeeps.globals, hh]
  rw [hwrite, after_moveHeap hheap, Store.setGlobal] at hrun
  by_cases hover : s₁.memory.size < (a + Int32.ofNat (ws.length * wordSize)).address
  · rw [if_pos ⟨rfl, hover⟩] at hrun
    have haddress := a.address_add_ofNat_le (ws.length * wordSize)
    rw [hkeeps.size] at hover
    exact .inl ⟨by omega, _, _, hrun⟩
  · rw [if_neg (fun hand => hover hand.2), if_pos (Bindings.contains_iff.mpr ⟨a, hheap⟩)] at hrun
    refine .inr ⟨_, hrun, by rw [hkeeps.globals], fun hsize => ?_⟩
    rcases allocation_run m k ls st rest ws hh hsize with ⟨r, s', hhalt⟩ | ⟨s', hnext, halloc⟩
    · rw [hrun] at hhalt
      cases hhalt
    · rw [hrun] at hnext
      cases hnext
      exact halloc

theorem allocation_straight (ws : List Word) : ∀ i ∈ allocation ws, i.isStraight = true := by
  intro i hi
  rw [allocation_eq, List.mem_append, List.mem_singleton] at hi
  rcases hi with hi | rfl
  · have hquiet := allocationFront_quiet ws i hi
    cases i <;> simp_all [Instr.isQuiet, Instr.isStraight]
  · rfl

/-- The machine constructs an object with the words where the heap ends, at `a`: it traps because
memory is full, or the address is the value. No function is called. -/
def Constructs (m : Machine σ) (k : Spot) (ls : Bindings Word) (st : List Word)
    (code rest : List Instr) (s : Store σ) (ws : List Word) (a : Word) : Prop :=
  s.memory.size < a.address + ws.length * wordSize ∧
      m.Traps k.depth [] (.next (k.state ls st (code ++ rest) s)) ∨
    ∃ s', s.Grown a ws s' ∧
      m.GetsTo k.depth [] (.next (k.state ls st (code ++ rest) s)) (k.state ls (a :: st) rest s')

theorem constructs_allocation (m : Machine σ) (k : Spot) (ls : Bindings Word) (st : List Word)
    (rest : List Instr) (ws : List Word) (hh : s.globals.find? Symbol.heapPointer = some a) :
    m.Constructs k ls st (allocation ws) rest s ws a := by
  have hstraight := allocation_straight ws
  rcases allocation_grows m k ls st rest ws hh with ⟨hfull, r, s', hhalt⟩ | ⟨s', hrun, hgrown⟩
  · exact .inl ⟨hfull, traps_of_straight hstraight hhalt⟩
  · exact .inr ⟨s', hgrown, getsTo_of_straight hstraight hrun⟩

end Machine

/-! ## Variables -/

def Site.Finds (site : Site) (x : String) (ls : Bindings Word) (s : Store σ) (w : Word) : Prop :=
  if site.locals.contains x then ls.find? x = some w else s.globals.find? x = some w

namespace Machine

variable {site : Site} {x : String} {w : Word}

theorem getsTo_get (hf : site.Finds x ls s w) :
    m.GetsTo k.depth [] (.next (k.state ls st (site.get x :: rest) s))
      (k.state ls (w :: st) rest s) := by
  rw [Site.Finds] at hf
  rw [Site.get]
  split at hf
  · next hl =>
    rw [if_pos hl]
    exact getsTo_of_step rfl (step_localGet hf)
  · next hl =>
    rw [if_neg hl]
    exact getsTo_of_step rfl (step_globalGet hf)

/-- In a regular state a variable can be set. -/
theorem Regular.getsTo_set (hv : m.module.Valid)
    (hr : m.Regular results (k.state ls (w :: st) (site.set x :: rest) s))
    (hx : ¬ site.locals.contains x = true → x ≠ Symbol.heapPointer) :
    ∃ ls' s', m.GetsTo k.depth [] (.next (k.state ls (w :: st) (site.set x :: rest) s))
        (k.state ls' st rest s') ∧ s'.memory = s.memory ∧ site.Finds x ls' s' w := by
  have hsafe := instr_safe_of_own hv (fun y hy => by rw [Site.set] at hy; split at hy <;> cases hy)
    hr.fits
  by_cases hl : site.locals.contains x = true
  · rw [Site.set, if_pos hl] at hsafe ⊢
    by_cases hbound : ls.contains x = true
    · refine ⟨ls.insert x w, s, getsTo_of_step rfl (step_localSet hbound), rfl, ?_⟩
      rw [Site.Finds, if_pos hl, Bindings.find?_insert_self]
    · have hstep : m.step (k.state ls (w :: st) (.localSet x :: rest) s) =
          .halt (.error (.unknownLocal x k.func.name)) s := by
        simp [Machine.step, Spot.state, exec, Frame.pop, Frame.setLocal, hbound]
      rw [hstep] at hsafe
      cases hsafe
  · rw [Site.set, if_neg hl] at hsafe ⊢
    have hset : s.setGlobal x w = if s.globals.contains x then
        .ok { s with globals := s.globals.insert x w } else .error (.unknownGlobal x) := by
      rw [Store.setGlobal, if_neg (fun hand => hx hl hand.1)]
    rw [step_globalSet, hset] at hsafe
    by_cases hbound : s.globals.contains x = true
    · rw [if_pos hbound] at hset
      refine ⟨ls, { s with globals := s.globals.insert x w }, getsTo_of_step rfl ?_, rfl, ?_⟩
      · rw [step_globalSet, hset]
      · rw [Site.Finds, if_neg hl, Bindings.find?_insert_self]
    · rw [if_neg hbound] at hsafe
      cases hsafe

/-! ## The call of the constructor -/

/-- The function hands back the object that it is called on, or zero if that is allowed. -/
structure Initializer (m : Machine σ) (zero : Bool) (name : String) (f : Func) : Prop where
  own : m.import? name = none
  found : m.function? name = some f
  params : f.params.length = 1
  result : f.hasResult = true
  body : HandsBack zero 0 .any f.body .never
  receiver : ∀ a, (Activation.enter f [a]).locals.find? receiverName = some a

/-- The machine calls `f` once, on the object at `a`, with the waiting frame at `k`. While the call
runs, it runs as on its own. If it traps, so does the machine, and what it gives back is found in
the variable. -/
structure Initializes (m : Machine σ) (q : Progress σ) (k : Spot) (st : List Word)
    (rest : List Instr) (site : Site) (x : String) (zero : Bool) (f : Func) (a : Word)
    (own : State σ) (ls : Bindings Word) : Prop where
  runs : ∀ n c, m.after n (.next own) = .next c →
    m.GetsTo k.depth [(f, [a])] q (c.above (waiting k ls st (site.set x :: rest)))
  traps : ∀ n t s, m.after n (.next own) = .halt (.error t) s → m.Traps k.depth [(f, [a])] q
  returns : ∀ n r s, m.after n (.next own) = .halt (.ok r) s →
    ∃ w ls' s', r = some w ∧ Yieldable zero a w ∧ s'.memory = s.memory ∧ site.Finds x ls' s' w ∧
      m.GetsTo k.depth [(f, [a])] q (k.state ls' st rest s')

/-- The constructor is called from a regular state in which the variable holds the object. -/
theorem Regular.initializes {q : Progress σ} {zero : Bool} {name : String} {f : Func} {room : Nat}
    (hv : m.module.Valid) (hf : m.Initializer zero name f)
    (hx : ¬ site.locals.contains x = true → x ≠ Symbol.heapPointer)
    (hr : m.Regular results (k.state ls (a :: st) (.call name :: site.set x :: rest) s))
    (hroom : k.room = room + 1)
    (hq : m.GetsTo k.depth [] q (k.state ls (a :: st) (.call name :: site.set x :: rest) s)) :
    m.Initializes q k st rest site x zero f a ⟨[Frame.enter f [a]], room, s⟩ ls := by
  have hcall : m.GetsTo k.depth [(f, [a])]
      (.next (k.state ls (a :: st) (.call name :: site.set x :: rest) s))
      (State.above ⟨[Frame.enter f [a]], room, s⟩ (waiting k ls st (site.set x :: rest))) :=
    getsTo_of_call hf.own hf.found hf.params.symm hroom
  have hopen := hq.trans hcall
  have hne : [Frame.enter f [a]] ≠ [] := List.cons_ne_nil _ _
  refine ⟨fun n c hn => ?_, fun n t s₁ hn => ?_, fun n r s₁ hn => ?_⟩
  · exact hopen.trans (getsTo_above hne hn)
  · exact hopen.traps (traps_above hne hn)
  · have hdepth : room + 1 + k.depth = m.maxCallDepth := by
      rw [← hroom, ← hr.room]
      rfl
    have hresult := (calls_of_after hdepth hn).handsBack hf.result hf.body (hf.receiver a)
    rcases hresult with ⟨t, ht⟩ | ⟨w, hw, hyield⟩
    · cases ht
    cases hw
    have hback : m.GetsTo k.depth [] (.next (State.above ⟨[Frame.enter f [a]], room, s⟩
        (waiting k ls st (site.set x :: rest)))) (k.state ls (w :: st) (site.set x :: rest) s₁) :=
      getsTo_of_return hne hroom hn
    have hreturned := (hr.of_getsTo hv hcall).of_getsTo hv hback
    obtain ⟨ls', s', hset, hmem, hfinds⟩ := hreturned.getsTo_set hv hx
    exact ⟨w, ls', s', rfl, hyield, hmem, hfinds, (hopen.trans hback).trans hset⟩

/-- The machine constructs an object where the heap ends, at `a`, stores it under a name and has it
initialized. It traps before that because memory is full or too many calls are open. -/
def Stores (m : Machine σ) (k : Spot) (ls : Bindings Word) (st : List Word)
    (code rest : List Instr) (s : Store σ) (ws : List Word) (a : Word) (site : Site) (x : String)
    (zero : Bool) (f : Func) : Prop :=
  (s.memory.size < a.address + ws.length * wordSize ∨ k.room = 0) ∧
      m.Traps k.depth [] (.next (k.state ls st (code ++ rest) s)) ∨
    ∃ room ls₁ s₁ s₂, k.room = room + 1 ∧ s.Grown a ws s₁ ∧ s₂.memory = s₁.memory ∧
      site.Finds x ls₁ s₂ a ∧
      m.Initializes (.next (k.state ls st (code ++ rest) s)) k st rest site x zero f a
        ⟨[Frame.enter f [a]], room, s₂⟩ ls₁

theorem Regular.stores {zero : Bool} {name : String} {f : Func}
    (hv : m.module.Valid) (hf : m.Initializer zero name f)
    (hx : ¬ site.locals.contains x = true → x ≠ Symbol.heapPointer)
    (hcode : code = allocation ws ++ [site.set x, site.get x, .call name, site.set x])
    (hr : m.Regular results (k.state ls st (code ++ rest) s))
    (hheap : s.globals.find? Symbol.heapPointer = some a) :
    m.Stores k ls st code rest s ws a site x zero f := by
  rw [Stores]
  subst hcode
  rw [List.append_assoc] at hr ⊢
  rcases constructs_allocation m k ls st
    ([site.set x, site.get x, .call name, site.set x] ++ rest) ws hheap with
    ⟨hfull, htraps⟩ | ⟨s₁, hgrown, hput⟩
  · exact .inl ⟨.inl hfull, htraps⟩
  obtain ⟨ls₁, s₂, hset, hmem, hfinds⟩ := (hr.of_getsTo hv hput).getsTo_set hv hx
  have hready := (hput.trans hset).trans (getsTo_get hfinds)
  cases hroom : k.room with
  | zero =>
    have htrap : m.Traps k.depth []
        (.next (k.state ls₁ ([a].reverse ++ st) (.call name :: site.set x :: rest) s₂)) :=
      traps_of_call hf.own hf.found hf.params.symm hroom
    exact .inl ⟨.inr rfl, hready.traps htrap⟩
  | succ room =>
    refine .inr ⟨room, ls₁, s₁, s₂, rfl, hgrown, hmem, hfinds, ?_⟩
    exact (hr.of_getsTo hv hready).initializes hv hf hx hroom hready

def Delivers (m : Machine σ) (site : Site) (d : ClassDef) (zero : Bool) (f : Func)
    (pos : Position) (k : Spot) (ls : Bindings Word) (st : List Word) (rest : List Instr)
    (s : Store σ) : Prop :=
  ∃ a, s.globals.find? Symbol.heapPointer = some a ∧
    match pos with
    | .value => m.Constructs k ls st (pos.code site d) rest s d.defaults a
    | .stored x => m.Stores k ls st (pos.code site d) rest s d.defaults a site x zero f

end Machine

/-! ## Programs -/

namespace Program

/-- A body of the program, with the names that are local in it and the function that it becomes. -/
inductive HasBody (p : Program) (o : Options) : List String → List Stmt → Func → Prop
  | definition {d g} (hd : d ∈ p.definitions)
      (hg : FuncOf.lower (Layouts.ofClasses p.classes) d.1 d.2 = .ok g) :
      HasBody p o d.2.slots d.2.body g
  | entry {g} (hg : p.lowerEntry (Layouts.ofClasses p.classes) o = .ok g) :
      HasBody p o [] p.stmts g

variable {p t : Program} {o : Options} {md : Module} {slots : List String} {body : List Stmt}
  {f : Func}

theorem HasBody.lowered (h : p.HasBody o slots body f) :
    ∃ code, Stmt.lowerBody ⟨Layouts.ofClasses p.classes, slots⟩ body = .ok code ∧
      code <:+: f.body := by
  cases h with
  | definition hd hg =>
    obtain ⟨code, hcode, rfl⟩ := FuncOf.lower_eq_ok_iff.mp hg
    exact ⟨code, hcode, (List.prefix_append code _).isInfix⟩
  | entry hg =>
    obtain ⟨code, hcode, rfl⟩ := lowerEntry_eq_ok_iff.mp hg
    exact ⟨code, hcode, List.infix_append _ code _⟩

theorem HasBody.mem_functions (h : p.HasBody o slots body f) (he : Emitted p o md) :
    f ∈ md.functions := by
  cases h with
  | definition hd hg =>
    obtain ⟨f', hf', hlower⟩ := he.definitions _ hd
    rwa [← Except.ok.inj (hlower.symm.trans hg)]
  | entry hg =>
    obtain ⟨f', hf', hlower⟩ := he.entry
    rwa [← Except.ok.inj (hlower.symm.trans hg)]

theorem HasBody.elaborated (h : p.HasBody o slots body f) (hp : p.Elaborated) :
    ∃ g : Option FuncDef, (g.map FuncOf.slots).getD [] = slots ∧
      ∀ st ∈ body, st.Elaborated (p.vocabulary g) := by
  cases h with
  | @definition d g hd hg =>
    exact ⟨some d.2, rfl, hp.bodies d.2 (mem_bodies.mpr ⟨d.1, hd⟩)⟩
  | entry hg => exact ⟨none, rfl, hp.stmts⟩

/-- The constructor of a class that is constructed takes the receiver alone. -/
theorem Elaborated.length_constructor_params (hp : t.Elaborated) {g : Option FuncDef}
    {d : ClassDef} (hd : d ∈ t.classes) {init : FuncDef} (hi : init ∈ d.methods)
    (hname : init.name = constructorName) (h : (t.vocabulary g).Constructs d.name) :
    init.params.length = 1 := by
  have hfound := hp.method?_eq hd hi
  rw [hname] at hfound
  rcases hp.find_constructor h (hp.class?_eq hd) with ⟨-, hmethod⟩ | ⟨-, hnone⟩
  · obtain ⟨init', hinit', -, -, hlen⟩ := hp.find_method hmethod
    obtain rfl : init = init' := Option.some.inj (hfound.symm.trans hinit')
    exact hlen
  · rw [hnone] at hfound
    cases hfound

/-- The function that a constructor becomes. -/
theorem exists_constructor (he : Emitted t o md) {d : ClassDef} (hd : d ∈ t.classes) {g : FuncDef}
    (hg : g ∈ d.methods) (hname : g.name = constructorName) :
    ∃ init ∈ md.functions,
      FuncOf.lower (Layouts.ofClasses t.classes) (some d.name) g = .ok init ∧
      init.name = Symbol.method d.name constructorName ∧
      init.params.length = g.params.length := by
  have hdef : (some d.name, g) ∈ t.definitions :=
    List.mem_append_right _ (List.mem_flatMap.mpr ⟨d, hd, List.mem_map.mpr ⟨g, hg, rfl⟩⟩)
  obtain ⟨init, hinit, hlower⟩ := he.definitions _ hdef
  refine ⟨init, hinit, hlower, ?_⟩
  obtain ⟨code, -, rfl⟩ := FuncOf.lower_eq_ok_iff.mp hlower
  simp [FuncOf.symbol, hname]

/-- The function of a constructor that leaves its receiver alone. -/
theorem initializer {g : FuncDef} {zero : Bool} {c : String} (he : Emitted t o m.module)
    (hf : f ∈ m.module.functions)
    (hlower : FuncOf.lower (Layouts.ofClasses t.classes) (some c) g = .ok f)
    (hname : g.name = constructorName) (hr : receiverName ∈ g.params.map (·.name))
    (hlen : g.params.length = 1)
    (hkeeps : ∀ top ∈ g.body, ∀ st : Stmt, st.Within top → st.KeepsReceiver zero) :
    m.Initializer zero f.name f where
  own := he.import?_eq_none hf
  found := he.function?_eq hf
  params := by
    obtain ⟨code, -, rfl⟩ := FuncOf.lower_eq_ok_iff.mp hlower
    simpa using hlen
  result := by
    obtain ⟨code, -, rfl⟩ := FuncOf.lower_eq_ok_iff.mp hlower
    rfl
  body := FuncOf.lower_handsBack hname hr hkeeps hlower
  receiver := FuncOf.enter_receiver hr hlen hkeeps hlower

theorem heap_isSome (he : Emitted p o md) {s : Store σ} (hs : s.Binds md) :
    ∃ a, s.globals.find? Symbol.heapPointer = some a := by
  have hglobal : (md.global? Symbol.heapPointer).isSome = true := by
    simp [Module.global?, he.globals, globals]
  exact Bindings.contains_iff.mp (hs _ hglobal)

/-- Every construction of a program, in whatever position. Its code stands in the function of its
body, and whenever a run comes to it, an object is put at the end of the heap. Where the
construction is stored under a name, the constructor is called once, on that object, and the
variable takes what it gives back, which is the object again unless the constructor returns `None`.
In all other positions the object is the value and no constructor is called. -/
theorem constructions_deliver (ht : p.check = .ok t) (hm : t.lower o = .ok md) (hd : p.Dotless)
    (host : Host σ) (c : Config) (s₀ : σ) {d : ClassDef} (hclass : d ∈ t.classes) {g : FuncDef}
    (hg : g ∈ d.methods) (hname : g.name = constructorName) {zero : Bool}
    (hkeeps : ∀ top ∈ g.body, ∀ st : Stmt, st.Within top → st.KeepsReceiver zero) :
    let mach := Machine.ofModule md c host
    let site (slots : List String) : Site := ⟨Layouts.ofClasses t.classes, slots⟩
    ∃ init ∈ md.functions, init.name = Symbol.method d.name constructorName ∧
      ∀ slots body f, t.HasBody o slots body f →
        ∀ top ∈ body, ∀ st : Stmt, st.Within top → ∀ pos, st.Places d.name pos →
          f ∈ md.functions ∧ Holds (pos.code (site slots) d) f.body ∧
          ∀ n k ls stack rest s,
            mach.after n (mach.start o.entryExport (Store.initial md c s₀)) =
              .next (k.state ls stack (pos.code (site slots) d ++ rest) s) →
            mach.Delivers (site slots) d zero init pos k ls stack rest s := by
  intro mach site
  have hp := check_elaborated ht
  have hdot := (check_sameOutline ht).dotless hd
  have he := hp.emitted hdot hm
  have hv := he.valid hp
  have hreceiver := hp.receivers d hclass g hg
  have hlayout : (Layouts.ofClasses t.classes).find? d.name = some (ClassLayout.ofClass d) :=
    Layouts.find?_ofClasses hp.classNames hclass
  have hconstructor : (ClassLayout.ofClass d).hasConstructor = true :=
    List.any_eq_true.mpr ⟨g, hg, by simp [hname]⟩
  obtain ⟨init, hinit, hlower, hsymbol, -⟩ := exists_constructor he hclass hg hname
  refine ⟨init, hinit, hsymbol, fun slots body f hbody top htop st hst pos hpos => ?_⟩
  obtain ⟨owner, rfl, hstmts⟩ := hbody.elaborated hp
  obtain ⟨hconstructs, hvar⟩ := hpos.known ((hstmts top htop).of_within hst)
  obtain ⟨code, hcode, hin⟩ := hbody.lowered
  obtain ⟨ctop, hctop, hintop⟩ := Stmt.lowerBody_infix htop hcode
  obtain ⟨cst, hcst, hholds⟩ := hst.lower hctop
  have hpiece := hholds (hpos.holds hlayout hconstructor hcst)
  refine ⟨hbody.mem_functions he, (hpiece.mono hintop).mono hin, ?_⟩
  intro n k ls stack rest s hn
  obtain ⟨results, hregular⟩ := regular_of_after ht hm hd hn
  obtain ⟨a, ha⟩ := heap_isSome he hregular.fits.store
  refine ⟨a, ha, ?_⟩
  cases pos with
  | value =>
    change mach.Constructs k ls stack (ClassLayout.ofClass d).allocate rest s d.defaults a
    rw [allocate_ofClass]
    exact Machine.constructs_allocation mach k ls stack rest d.defaults ha
  | stored x =>
    have hlen := hp.length_constructor_params hclass hg hname hconstructs
    have hinitializer : mach.Initializer zero init.name init :=
      initializer he hinit hlower hname hreceiver hlen hkeeps
    have hx : ¬ (site ((owner.map FuncOf.slots).getD [])).locals.contains x = true →
        x ≠ Symbol.heapPointer :=
      (hp.spares hdot owner).ne_heapPointer (hvar x rfl)
    refine hregular.stores hv hinitializer hx ?_ ha
    rw [Position.code, allocate_ofClass, hsymbol]

/-- A constructor that sets a field of the receiver and returns `None`. -/
def cellInit : FuncDef :=
  let ty : Ty := .object "Cell"
  { name := "__init__", params := [⟨"self", ty, default⟩], ret := ty, span := default
    body := [
      .assign default (.field (.name ⟨default, some ty⟩ .self) "value")
        (.literal ⟨default, some .int⟩ (.number 7)),
      .ret default (.literal ⟨default, some .none⟩ .none)] }

def cell : ClassDef where
  name := "Cell"
  fields := [⟨"value", .int, .number 0, default⟩]
  methods := [cellInit]
  span := default

/-- Constructs a cell under a name, and another one to read its field. -/
def cells : Program :=
  let ty : Ty := .object "Cell"
  let construct : Expr := .construct ⟨default, some ty⟩ "Cell"
  { vars := [], funcs := [], classes := [cell]
    stmts := [
      .declare ⟨"c", ty, construct, default⟩,
      .expr (.field ⟨default, some .int⟩ construct "value")]
    ty := some .int }

theorem constructions_deliver_cells : ∃ md init k ls rest,
    cells.check = .ok cells ∧ cells.lower {} = .ok md ∧ cells.Dotless ∧
    init ∈ md.functions ∧ init.name = "__init___Cell" ∧
    let mach := Machine.ofModule md {} Recording.host
    let site : Site := ⟨Layouts.ofClasses cells.classes, []⟩
    let s := Store.initial md {} Recording.empty
    mach.start ({} : Options).entryExport s =
      .next (Spot.state k ls [] ((Position.stored "c").code site cell ++ rest) s) ∧
    mach.Delivers site cell true init (.stored "c") k ls [] rest s := by
  have ht : cells.check = .ok cells := rfl
  have hd : cells.Dotless := by decide
  have hcell : cell ∈ cells.classes := List.mem_singleton.mpr rfl
  have hinit : cellInit ∈ cell.methods := List.mem_singleton.mpr rfl
  have hkeeps : ∀ top ∈ cellInit.body, ∀ st : Stmt, st.Within top → st.KeepsReceiver true := by
    intro top htop st hst
    rcases List.mem_pair.mp htop with rfl | rfl
    · cases hst with
      | refl => trivial
      | inner hin => cases hin
    · cases hst with
      | refl => exact .inr ⟨rfl, rfl⟩
      | inner hin => cases hin
  obtain ⟨md, hm, g, ls, rest, hg, hstart⟩ : ∃ md, cells.lower {} = .ok md ∧ ∃ g ls rest,
      cells.lowerEntry (Layouts.ofClasses cells.classes) {} = .ok g ∧
      (Machine.ofModule md {} Recording.host).start ({} : Options).entryExport
          (Store.initial md {} Recording.empty) =
        .next (Spot.state ⟨g, none, [], [], 511⟩ ls []
          ((Position.stored "c").code ⟨Layouts.ofClasses cells.classes, []⟩ cell ++ rest)
          (Store.initial md {} Recording.empty)) :=
    ⟨_, rfl, _, _, _, rfl, rfl⟩
  obtain ⟨init, hmem, hname, hdelivers⟩ :=
    constructions_deliver ht hm hd Recording.host {} .empty hcell hinit rfl hkeeps
  obtain ⟨-, -, hrun⟩ := hdelivers [] cells.stmts g (.entry hg) _ List.mem_cons_self _ .refl
    (.stored "c") (.declared (d := ⟨"c", _, _, _⟩) rfl)
  exact ⟨md, init, _, ls, rest, ht, hm, hd, hmem, hname, hstart, hrun 0 _ _ _ _ _ hstart⟩

/-- Only the first cell is initialized, and it is lost: the variable holds the `None` that the
constructor returned. The field of the second one, which is the result, still has its default. -/
theorem cells_leave_uninitialized :
    ((cells.compile {}).toOption.bind fun m =>
      (m.run 200 {} Recording.host .empty {}).map fun r =>
        (r.1.toOption, r.2.globals.find? "c", (r.2.memory.load 4).toOption,
          (r.2.memory.load 8).toOption)) =
      some (some (some 0), some 0, some 7, some 0) := by
  decide +kernel

end Program

end TypedScript
