import TypedScript.Proofs.Lowering.Validity
import TypedScript.Proofs.Machine.Step

/-! # Valid modules do not go wrong

A state fits a module if every open body of every open call finds the operands that its code was
validated for. Steps lead from fitting states to fitting states, and what stops them is no fault of
the code. -/

namespace TypedScript

open Instr

/-- Traps that only code which is not valid runs into. -/
def Trap.isFault : Trap → Bool
  | .unknownFunction _ | .unknownGlobal _ | .unknownLocal .. | .stackUnderflow _ | .missingExport _
  | .invalidBranch _ => true
  | .outOfBounds .. | .outOfMemory .. | .divisionByZero | .integerOverflow | .callStackExhausted _
  | .host _ => false

/-- The open bodies of a call, with what a branch to each of them leaves and the number of operands
that they take altogether. -/
inductive Opens (m : Module) (f : Func) : List Label → List Nat → Nat → Prop
  | none : Opens m f [] [] f.results
  | body {rest h} (hrest : bodyHeight? m f [f.results] rest h = some f.results) :
      Opens m f [⟨rest, .none⟩] [f.results] h
  | inner {rest again outer leaves n h} (ho : Opens m f outer leaves n)
      (hrest : bodyHeight? m f (0 :: leaves) rest h = some 0)
      (hagain : ∀ b, again = some b → bodyHeight? m f (0 :: leaves) b 0 = some 0) :
      Opens m f (⟨rest, again⟩ :: outer) (0 :: leaves) (n + h)

namespace Opens

variable {m : Module} {f : Func} {labels outer : List Label} {leaves : List Nat} {n : Nat}

theorem block {rest : List Instr} (h : Opens m f outer leaves n)
    (hrest : bodyHeight? m f (0 :: leaves) rest 0 = some 0) :
    Opens m f (⟨rest, .none⟩ :: outer) (0 :: leaves) n :=
  .inner h hrest (by simp)

theorem loop {body : List Instr} (h : Opens m f outer leaves n)
    (hbody : bodyHeight? m f (0 :: leaves) body 0 = some 0) :
    Opens m f (⟨body, some body⟩ :: outer) (0 :: leaves) n :=
  .inner h hbody (by rintro _ ⟨⟩; exact hbody)

/-- The next instruction is valid at the height that the code in front of it has reached. -/
theorem next {i : Instr} {rest : List Instr} {again : Option (List Instr)}
    (h : Opens m f (⟨i :: rest, again⟩ :: outer) leaves n) :
    ∃ base before after, n = base + before ∧ height? m f leaves i before = some after ∧
      Opens m f (⟨rest, again⟩ :: outer) leaves (base + after) := by
  cases h with
  | body hrest =>
    obtain ⟨h', hi, hr⟩ := Option.bind_eq_some_iff.mp (bodyHeight?_cons ▸ hrest)
    exact ⟨0, n, h', by omega, hi, by simpa using Opens.body hr⟩
  | @inner _ _ _ _ base h ho hrest hagain =>
    obtain ⟨h', hi, hr⟩ := Option.bind_eq_some_iff.mp (bodyHeight?_cons ▸ hrest)
    exact ⟨base, h, h', rfl, hi, .inner ho hr hagain⟩

/-- A body that has come to its end leaves the operands of the bodies around it. -/
theorem ended {again : Option (List Instr)} (h : Opens m f (⟨[], again⟩ :: outer) leaves n) :
    ∃ leaves', Opens m f outer leaves' n := by
  cases h with
  | body hrest =>
    obtain rfl : n = f.results := by simpa using hrest
    exact ⟨[], .none⟩
  | @inner _ _ _ _ base h ho hrest _ =>
    obtain rfl : h = 0 := by simpa using hrest
    exact ⟨_, ho⟩

/-- The body that a branch goes to is open. -/
theorem target {depth leave : Nat} (h : Opens m f labels leaves n)
    (hd : leaves[depth]? = some leave) :
    ∃ rest again outer, labels.drop depth = ⟨rest, again⟩ :: outer ∧
      ((again = .none ∧ outer = [] ∧ leave = f.results) ∨
        ∃ leaves' n', n' ≤ n ∧ Opens m f outer leaves' n' ∧
          ∀ b, again = some b → bodyHeight? m f (0 :: leaves') b 0 = some 0) := by
  induction h generalizing depth with
  | none => simp at hd
  | @body rest h hrest =>
    cases depth with
    | zero => exact ⟨rest, .none, [], rfl, .inl ⟨rfl, rfl, by simpa using hd.symm⟩⟩
    | succ depth => simp at hd
  | @inner rest again outer leaves n h ho hrest hagain ih =>
    cases depth with
    | zero => exact ⟨rest, again, outer, rfl, .inr ⟨leaves, n, by omega, ho, hagain⟩⟩
    | succ depth =>
      obtain ⟨rest', again', outer', hdrop, hcases⟩ := ih (by simpa using hd)
      refine ⟨rest', again', outer', by simpa using hdrop, hcases.imp_right ?_⟩
      rintro ⟨leaves', n', hle, hopens, hloop⟩
      exact ⟨leaves', n', by omega, hopens, hloop⟩

end Opens

/-- A call that is owed some values has the operands that its open bodies take. -/
structure Frame.Fits (m : Module) (owed : Nat) (f : Frame) : Prop where
  known : f.func ∈ m.functions
  slots : ∀ x, f.func.hasSlot x = true → f.locals.contains x = true
  opens : ∃ leaves n, Opens m f.func f.labels leaves n ∧ n ≤ f.stack.length + owed

/-- The open calls fit, each owed what the call it made gives back. The outermost one gives back
`results` values. -/
inductive CallsFit (m : Module) (results : Nat) : Nat → List Frame → Prop
  | outermost {owed f} (hf : f.Fits m owed) (hr : f.func.results = results) :
      CallsFit m results owed [f]
  | call {owed f callers} (hf : f.Fits m owed) (ho : CallsFit m results f.func.results callers) :
      CallsFit m results owed (f :: callers)

namespace CallsFit

variable {m : Module} {results owed owed' : Nat} {f g : Frame} {callers : List Frame}

theorem head (h : CallsFit m results owed (f :: callers)) : f.Fits m owed := by
  cases h with
  | outermost hf _ => exact hf
  | call hf _ => exact hf

/-- The innermost call may go on as long as it fits. -/
theorem replace (h : CallsFit m results owed (f :: callers)) (hg : g.Fits m owed')
    (hfunc : g.func = f.func) : CallsFit m results owed' (g :: callers) := by
  cases h with
  | outermost _ hr => exact .outermost hg (hfunc ▸ hr)
  | call _ ho => exact .call hg (hfunc ▸ ho)

end CallsFit

/-- Every global variable of the module has a value. -/
def Store.Binds {σ : Type} (m : Module) (s : Store σ) : Prop :=
  ∀ x, (m.global? x).isSome = true → s.globals.contains x = true

structure State.Fits {σ : Type} (m : Module) (results : Nat) (s : State σ) : Prop where
  calls : CallsFit m results 0 s.frames
  store : s.store.Binds m

/-- A further state fits, and a halt is no fault and brings the results that are expected. -/
def Progress.Safe {σ : Type} (m : Module) (results : Nat) : Progress σ → Prop
  | .next s => s.Fits m results
  | .halt (.ok r) _ => r.toList.length = results
  | .halt (.error t) _ => t.isFault = false

section

variable {σ : Type} {m : Module} {results : Nat} {k : Spot} {ls ls' : Bindings Word}
  {st st' : List Word} {code : List Instr} {s s' : Store σ} {f : Frame} {callers : List Frame}
  {room room' : Nat}

theorem State.Fits.go (h : State.Fits m results ⟨f :: callers, room, s⟩) {labels : List Label}
    {leaves : List Nat} {n : Nat}
    (hls : ∀ x, f.func.hasSlot x = true → ls'.contains x = true)
    (ho : Opens m f.func labels leaves n) (hn : n ≤ st'.length) (hs : s'.Binds m) :
    State.Fits m results ⟨⟨f.func, ls', st', labels⟩ :: callers, room', s'⟩ :=
  ⟨h.calls.replace ⟨h.calls.head.known, hls, leaves, n, ho, hn⟩ rfl, hs⟩

theorem Frame.Fits.receive {r : Option Word} (h : f.Fits m r.toList.length) :
    (f.receive r).Fits m 0 := by
  obtain ⟨leaves, n, ho, hn⟩ := h.opens
  cases r with
  | none => exact ⟨h.known, h.slots, leaves, n, ho, hn⟩
  | some w => exact ⟨h.known, h.slots, leaves, n, ho, by simpa [Frame.receive, Frame.push] using hn⟩

/-- What a call gives back is what its caller is owed. -/
theorem leave_safe (h : State.Fits m results ⟨f :: callers, room, s⟩) (hl : f.labels = []) :
    (Machine.leave f callers room s).Safe m results := by
  obtain ⟨leaves, n, ho, hn⟩ := h.calls.head.opens
  rw [hl] at ho
  obtain rfl : n = f.func.results := by cases ho; rfl
  obtain ⟨r, hr, hlen⟩ : ∃ r, f.result = .ok r ∧ r.toList.length = f.func.results := by
    rw [Frame.result]
    cases hres : f.func.hasResult with
    | false => exact ⟨none, rfl, by simp [Func.results, hres]⟩
    | true =>
      cases hst : f.stack with
      | nil => simp [Func.results, hres, hst] at hn
      | cons w ws => exact ⟨some w, rfl, by simp [Func.results, hres]⟩
  cases h.calls with
  | outermost _ hresults => simpa [Machine.leave, hr, Progress.Safe, hlen] using hresults
  | call _ hcallers =>
    cases callers with
    | nil => cases hcallers
    | cons caller outer =>
      rw [← hlen] at hcallers
      simp only [Machine.leave, hr, Progress.Safe]
      refine ⟨hcallers.replace hcallers.head.receive ?_, h.store⟩
      cases r <;> rfl

/-- A call that is opened with an argument for each parameter fits. -/
theorem enter_fits {callee : Func} {args : List Word} (hv : callee.Valid m)
    (hc : callee ∈ m.functions) (ha : args.length = callee.params.length) :
    (Frame.enter callee args).Fits m 0 where
  known := hc
  slots x hx := by
    have hnames : (callee.params.zip args).map (·.1) = callee.params :=
      List.map_fst_zip (by omega)
    rw [Frame.enter, Bindings.contains_ofList, List.map_append, hnames, List.map_map]
    simpa [Func.hasSlot, Frame.enter] using hx
  opens := ⟨[callee.results], 0, .body hv, Nat.zero_le _⟩

theorem enter_safe {mach : Machine σ} {frames : List Frame} {callee : Func} {args : List Word}
    (hv : callee.Valid m) (hc : callee ∈ m.functions) (ha : args.length = callee.params.length)
    (hs : s.Binds m)
    (hframes : ∀ g : Frame, g.func = callee → g.Fits m 0 → CallsFit m results 0 (g :: frames)) :
    (mach.enter ⟨frames, room, s⟩ callee args).Safe m results := by
  cases room with
  | zero => rfl
  | succ room => exact ⟨hframes _ rfl (enter_fits hv hc ha), hs⟩

theorem Store.Binds.setGlobal {x : String} (h : s.Binds m) (hx : (m.global? x).isSome = true)
    (w : Word) :
    match s.setGlobal x w with
    | .ok s' => s'.Binds m
    | .error t => t.isFault = false := by
  by_cases hover : x = Symbol.heapPointer ∧ s.memory.size < w.address
  · rw [Store.setGlobal, if_pos hover]
    rfl
  · rw [Store.setGlobal, if_neg hover, if_pos (h x hx)]
    intro y hy
    exact Bindings.contains_insert.mpr (.inr (h y hy))

theorem Store.Binds.storeWord (h : s.Binds m) (a w : Word) :
    match s.storeWord a w with
    | .ok s' => s'.Binds m
    | .error t => t.isFault = false := by
  by_cases hin : s.memory.contains a = true
  · simp only [Store.storeWord, Memory.store_eq, if_pos hin]
    exact h
  · cases hheap : s.globals.find? Symbol.heapPointer with
    | none => simp [Store.storeWord, Memory.store_eq, hin, hheap, Trap.isFault]
    | some heap =>
      by_cases hle : heap ≤ a
      · simp [Store.storeWord, Memory.store_eq, hin, hheap, hle, Trap.isFault]
      · simp [Store.storeWord, Memory.store_eq, hin, hheap, hle, Trap.isFault]

theorem Memory.load_isFault {mem : Memory} {a : Word} {t : Trap} (h : mem.load a = .error t) :
    t.isFault = false := by
  by_cases hin : mem.contains a = true
  · simp [Memory.load, hin] at h
  · simp only [Memory.load, if_neg hin] at h
    cases h
    rfl

/-- The host answers in the common way and fails, if at all, with a fault of its own. -/
structure Host.Tame (host : Host σ) : Prop where
  answers : host.call = HostFunction.answer host.observe host.writeLine
  writes : ∀ line h t h', host.writeLine line h = (.error t, h') → ∃ reason, t = .host reason

theorem Host.Tame.call {host : Host σ} (hh : host.Tame) {fn : HostFunction} {w : Word} {h h' : σ}
    {t : Trap} (hc : host.call fn w h = (.error t, h')) : t.isFault = false := by
  rw [hh.answers, HostFunction.answer] at hc
  split at hc
  · cases hc
  · split at hc
    · cases hc
    · next hw =>
      cases hc
      obtain ⟨reason, rfl⟩ := hh.writes _ _ _ _ hw
      rfl

theorem NumericOp.eval_isFault {op : NumericOp} {l r : Word} {t : Trap}
    (h : op.eval l r = .error t) : t.isFault = false := by
  cases op <;> simp only [NumericOp.eval] at h <;> grind [Trap.isFault]

theorem br_safe {mach : Machine σ} {i : Instr} {depth leave n : Nat} {leaves : List Nat}
    (h : State.Fits m results (k.state ls st' (i :: code) s))
    (ho : Opens m k.func (⟨code, k.again⟩ :: k.outer) leaves n)
    (hd : leaves[depth]? = some leave) (hn : n ≤ st.length) (hleave : leave ≤ st.length) :
    (mach.step (k.state ls st (.br depth :: code) s)).Safe m results := by
  obtain ⟨rest, again, outer, hdrop, hcases⟩ := ho.target hd
  have hls := h.calls.head.slots
  rw [Machine.step_br, Frame.branch, hdrop]
  rcases hcases with ⟨rfl, rfl, rfl⟩ | ⟨leaves', n', hle, hopens, hloop⟩
  · exact h.go hls .none hleave h.store
  · cases again with
    | none => exact h.go hls hopens (Nat.le_trans hle hn) h.store
    | some b => exact h.go hls (hopens.loop (hloop b rfl)) (Nat.le_trans hle hn) h.store

/-- One step of an instruction that is valid where it stands. -/
theorem instr_safe {mach : Machine σ} (hv : mach.module.Valid) (hh : mach.host.Tame) {i : Instr}
    (h : State.Fits mach.module results (k.state ls st (i :: code) s)) :
    (mach.step (k.state ls st (i :: code) s)).Safe mach.module results := by
  obtain ⟨leaves, n, hopens, hn⟩ := h.calls.head.opens
  obtain ⟨base, before, after, rfl, hi, ho⟩ := hopens.next
  have hls : ∀ x, k.func.hasSlot x = true → ls.contains x = true := h.calls.head.slots
  have hs : s.Binds mach.module := h.store
  have hn : base + before ≤ st.length := hn
  have ho : Opens mach.module k.func (⟨code, k.again⟩ :: k.outer) leaves (base + after) := ho
  clear hopens
  cases i with
  | const w =>
    rw [Machine.step_const]
    simp only [height?, heightAfter_eq_some] at hi
    exact h.go hls ho (by simp; omega) hs
  | localGet x =>
    simp only [height?, Option.ite_none_right_eq_some, heightAfter_eq_some] at hi
    obtain ⟨w, hw⟩ := Bindings.contains_iff.mp (hls x hi.1)
    rw [Machine.step_localGet hw]
    exact h.go hls ho (by simp; omega) hs
  | localSet x =>
    simp only [height?, Option.ite_none_right_eq_some, heightAfter_eq_some] at hi
    obtain ⟨w, ws, rfl⟩ := List.exists_cons_of_length_pos (by omega : 0 < st.length)
    rw [List.length_cons] at hn
    rw [Machine.step_localSet (hls x hi.1)]
    exact h.go (fun y hy => Bindings.contains_insert.mpr (.inr (hls y hy))) ho (by omega) hs
  | globalGet x =>
    simp only [height?, Option.ite_none_right_eq_some, heightAfter_eq_some] at hi
    obtain ⟨w, hw⟩ := Bindings.contains_iff.mp (hs x hi.1)
    rw [Machine.step_globalGet hw]
    exact h.go hls ho (by simp; omega) hs
  | globalSet x =>
    simp only [height?, Option.ite_none_right_eq_some, heightAfter_eq_some] at hi
    obtain ⟨w, ws, rfl⟩ := List.exists_cons_of_length_pos (by omega : 0 < st.length)
    rw [List.length_cons] at hn
    have hset := hs.setGlobal hi.1 w
    rw [Machine.step_globalSet]
    cases hr : s.setGlobal x w with
    | error t =>
      rw [hr] at hset
      exact hset
    | ok s' =>
      rw [hr] at hset
      exact h.go hls ho (by omega) hset
  | numeric op =>
    simp only [height?, heightAfter_eq_some] at hi
    obtain ⟨r, ws, rfl⟩ := List.exists_cons_of_length_pos (by omega : 0 < st.length)
    rw [List.length_cons] at hn
    obtain ⟨l, ws, rfl⟩ := List.exists_cons_of_length_pos (by omega : 0 < ws.length)
    rw [List.length_cons] at hn
    rw [Machine.step_numeric]
    cases hr : op.eval l r with
    | error t => exact NumericOp.eval_isFault hr
    | ok w => exact h.go hls ho (by simp; omega) hs
  | eqz =>
    simp only [height?, heightAfter_eq_some] at hi
    obtain ⟨w, ws, rfl⟩ := List.exists_cons_of_length_pos (by omega : 0 < st.length)
    rw [List.length_cons] at hn
    rw [Machine.step_eqz]
    exact h.go hls ho (by simp; omega) hs
  | load =>
    simp only [height?, heightAfter_eq_some] at hi
    obtain ⟨a, ws, rfl⟩ := List.exists_cons_of_length_pos (by omega : 0 < st.length)
    rw [List.length_cons] at hn
    rw [Machine.step_load]
    cases hr : s.memory.load a with
    | error t => exact Memory.load_isFault hr
    | ok w => exact h.go hls ho (by simp; omega) hs
  | store =>
    simp only [height?, heightAfter_eq_some] at hi
    obtain ⟨w, ws, rfl⟩ := List.exists_cons_of_length_pos (by omega : 0 < st.length)
    rw [List.length_cons] at hn
    obtain ⟨a, ws, rfl⟩ := List.exists_cons_of_length_pos (by omega : 0 < ws.length)
    rw [List.length_cons] at hn
    have hstore := hs.storeWord a w
    rw [Machine.step_store]
    cases hr : s.storeWord a w with
    | error t =>
      rw [hr] at hstore
      exact hstore
    | ok s' =>
      rw [hr] at hstore
      exact h.go hls ho (by omega) hstore
  | ite body otherwise =>
    simp only [height?, Option.ite_none_right_eq_some, heightAfter_eq_some] at hi
    obtain ⟨w, ws, rfl⟩ := List.exists_cons_of_length_pos (by omega : 0 < st.length)
    rw [List.length_cons] at hn
    rw [Machine.step_ite]
    by_cases hw : w = 0
    · rw [if_neg (by simpa using hw)]
      exact h.go hls (ho.block hi.1.2) (by omega) hs
    · rw [if_pos hw]
      exact h.go hls (ho.block hi.1.1) (by omega) hs
  | block body =>
    simp only [height?, Option.ite_none_right_eq_some, Option.some.injEq] at hi
    rw [Machine.step_block]
    exact h.go hls (ho.block hi.1) (by omega) hs
  | loop body =>
    simp only [height?, Option.ite_none_right_eq_some, Option.some.injEq] at hi
    rw [Machine.step_loop]
    exact h.go hls (ho.loop hi.1) (by omega) hs
  | br depth =>
    obtain ⟨leave, hd, hi⟩ := Option.bind_eq_some_iff.mp hi
    simp only [heightAtExit, Option.ite_none_right_eq_some, Option.some.injEq] at hi
    exact br_safe h ho hd (by omega) (by omega)
  | brIf depth =>
    obtain ⟨leave, hd, hi⟩ := Option.bind_eq_some_iff.mp hi
    simp only [Option.ite_none_right_eq_some, Option.some.injEq] at hi
    obtain ⟨w, ws, rfl⟩ := List.exists_cons_of_length_pos (by omega : 0 < st.length)
    rw [List.length_cons] at hn
    by_cases hw : w = 0
    · rw [hw, Machine.step_brIf_zero]
      exact h.go hls ho (by omega) hs
    · rw [Machine.step_brIf hw]
      exact br_safe h ho hd (by omega) (by omega)
  | ret =>
    simp only [height?, heightAtExit, Option.ite_none_right_eq_some, Option.some.injEq] at hi
    have hresults : k.func.results ≤ st.length := by omega
    rw [Machine.step_ret]
    exact h.go hls .none hresults hs
  | nop =>
    simp only [height?, Option.some.injEq] at hi
    rw [Machine.step_nop]
    exact h.go hls ho (by omega) hs
  | call x =>
    obtain ⟨a, ha, hi⟩ := Option.bind_eq_some_iff.mp hi
    rw [heightAfter_eq_some] at hi
    rcases Module.arity_cases ha with ⟨himport, rfl⟩ | ⟨himport, callee, hcallee, rfl⟩
    · obtain ⟨fn, hfn⟩ := mach.import?_of_importsHost himport
      obtain ⟨w, ws, rfl⟩ := List.exists_cons_of_length_pos (by omega : 0 < st.length)
      rw [List.length_cons] at hn
      rw [Machine.step_import hfn]
      rcases hr : mach.host.call fn w s.host with ⟨r, host⟩
      cases r with
      | error t => exact hh.call hr
      | ok r => exact h.go hls ho (by simp; omega) hs
    · have hmem : callee ∈ mach.module.functions.filter (·.name == x) := by simp [hcallee]
      have hfound : mach.function? x = some callee := by simp [mach.function?_eq, hcallee]
      have hknown := (List.mem_filter.mp hmem).1
      rw [Machine.step_call (mach.import?_eq_none himport) hfound (by omega)]
      refine enter_safe (hv callee hknown) hknown (by simp; omega) hs fun g hg hfits => ?_
      subst hg
      -- the caller is owed the results until the callee has left
      have hlen : base + after ≤ (st.drop g.func.params.length).length + g.func.results := by
        simp only at hi
        rw [List.length_drop]
        omega
      exact .call hfits (h.calls.replace ⟨h.calls.head.known, hls, leaves, _, ho, hlen⟩ rfl)

theorem step_safe {mach : Machine σ} (hv : mach.module.Valid) (hh : mach.host.Tame) {q : State σ}
    (h : q.Fits mach.module results) : (mach.step q).Safe mach.module results := by
  obtain ⟨frames, room, s⟩ := q
  cases frames with
  | nil => cases h.calls
  | cons f callers =>
    obtain ⟨func, ls, st, labels⟩ := f
    match labels with
    | [] => exact leave_safe h rfl
    | ⟨[], again⟩ :: outer =>
      obtain ⟨leaves, n, hopens, hn⟩ := h.calls.head.opens
      obtain ⟨leaves', ho⟩ := hopens.ended
      exact h.go h.calls.head.slots ho hn h.store
    | ⟨i :: code, again⟩ :: outer =>
      exact instr_safe (k := ⟨func, again, outer, callers, room⟩) hv hh h

/-- A run from a fitting state halts, if it does, without a fault. -/
theorem runFrom_safe {mach : Machine σ} (hv : mach.module.Valid) (hh : mach.host.Tame) {fuel : Nat}
    {q : Progress σ} {r : Except Trap (Option Word)} (h : q.Safe mach.module results)
    (hr : mach.runFrom fuel q = some (r, s)) :
    (Progress.halt r s).Safe mach.module results := by
  induction fuel generalizing q with
  | zero =>
    cases q with
    | next q => simp [Machine.runFrom] at hr
    | halt r' s' =>
      cases hr
      exact h
  | succ fuel ih =>
    cases q with
    | next q => exact ih (step_safe hv hh h) hr
    | halt r' s' =>
      cases hr
      exact h

end

theorem Store.initial_binds {σ : Type} (m : Module) (c : Config) (s : σ) :
    (Store.initial m c s).Binds m := by
  intro x hx
  obtain ⟨g, hg, hname⟩ := List.find?_isSome.mp hx
  rw [Store.initial, Bindings.contains_ofList, List.map_map]
  exact List.mem_map.mpr ⟨g, hg, beq_iff_eq.mp hname⟩

/-- The entry is the only function that is exported. -/
theorem Emitted.export_eq {p : Program} {o : Options} {m : Module} {g : Func} {σ : Type}
    {mach : Machine σ} (h : Emitted p o m) (hm : mach.module = m)
    (hg : p.lowerEntry (Layouts.ofClasses p.classes) o = .ok g) :
    mach.export? o.entryExport = some g := by
  have hname : g.exportName = some o.entryExport := by
    obtain ⟨body, -, rfl⟩ := Program.lowerEntry_eq_ok_iff.mp hg
    rfl
  have honly : ∀ f ∈ m.functions.filter (·.exportName == some o.entryExport), f = g := by
    intro f hf
    obtain ⟨hf, hexport⟩ := List.mem_filter.mp hf
    rcases h.cases f hf with ⟨b, -, rfl⟩ | ⟨d, -, hlower⟩ | hlower
    · simp [Builtin.func] at hexport
    · obtain ⟨body, -, rfl⟩ := FuncOf.lower_eq_ok_iff.mp hlower
      simp at hexport
    · exact Except.ok.inj (hlower.symm.trans hg)
  have hmem : g ∈ m.functions.filter (·.exportName == some o.entryExport) := by
    obtain ⟨g', hg', hlower⟩ := h.entry
    obtain rfl : g' = g := Except.ok.inj (hlower.symm.trans hg)
    exact List.mem_filter.mpr ⟨hg', by simp [hname]⟩
  rw [mach.export?_eq, hm]
  cases hlast : (m.functions.filter (·.exportName == some o.entryExport)).getLast? with
  | none =>
    rw [List.getLast?_eq_none_iff] at hlast
    rw [hlast] at hmem
    cases hmem
  | some f => rw [honly f (List.mem_of_getLast? hlast)]

namespace Program

/-- The module of a program runs without a fault, and it gives a value back exactly if the program
ends with an expression. -/
theorem run_without_fault {σ : Type} {p : Program} {o : Options} {m : Module} {host : Host σ}
    (h : p.compile o = .ok m) (hd : p.Dotless) (hh : host.Tame) (c : Config) (s : σ) (fuel : Nat)
    {r : Except Trap (Option Word)} {store : Store σ}
    (hr : m.run fuel o host s c = some (r, store)) :
    (∀ t, r = .error t → t.isFault = false) ∧ ∀ v, r = .ok v → v.isSome = p.endsWithExpr := by
  obtain ⟨t, ht, hm⟩ := compile_eq_ok_iff.mp h
  have helab := check_elaborated ht
  have hsame := check_sameOutline ht
  have hemit := helab.emitted (hsame.dotless hd) hm
  have hvalid := hemit.valid helab
  obtain ⟨g, hg, hentry⟩ := hemit.entry
  obtain ⟨body, -, hdef⟩ := lowerEntry_eq_ok_iff.mp hentry
  have hparams : g.params = [] := by rw [← hdef]
  have hresults : g.results = if p.endsWithExpr then 1 else 0 := by
    rw [← hdef, ← hsame.endsWithExpr]
    rfl
  have hsafe : ((Machine.ofModule m c host).enter ⟨[], c.maxCallDepth, Store.initial m c s⟩ g
      []).Safe m g.results :=
    enter_safe (hvalid g hg) hg (by simp [hparams]) (Store.initial_binds m c s)
      fun f hf hfits => .outermost hfits (by rw [hf])
  rw [Module.run, Machine.run, hemit.export_eq rfl hentry] at hr
  have hend : (Progress.halt r store).Safe m g.results := runFrom_safe hvalid hh hsafe hr
  constructor
  · rintro e rfl
    exact hend
  · rintro v rfl
    have hlen : v.toList.length = g.results := hend
    rw [hresults] at hlen
    cases v <;> cases hp : p.endsWithExpr <;> simp [hp] at hlen ⊢

theorem run_countdown : ∃ m t store, countdown.compile {} = .ok m ∧ countdown.Dotless ∧
    (Recording.limitedHost 1).Tame ∧
    m.run 400 {} (Recording.limitedHost 1) .empty {} = some (.error t, store) ∧
    t.isFault = false := by
  have hdot : countdown.Dotless := by decide
  have htame : (Recording.limitedHost 1).Tame := by
    refine ⟨rfl, fun line r t r' h => ?_⟩
    simp only [Recording.limitedHost] at h
    split at h
    · cases h
    · cases h
      exact ⟨_, rfl⟩
  have hrun : ((countdown.compile {}).toOption.bind fun m =>
      m.run 400 {} (Recording.limitedHost 1) .empty {}).map (·.1.toBool) = some false := by
    decide +kernel
  cases hm : countdown.compile {} with
  | error e =>
    rw [hm] at hrun
    cases hrun
  | ok m =>
    rw [hm] at hrun
    obtain ⟨⟨r, store⟩, hr, hb⟩ := Option.map_eq_some_iff.mp hrun
    cases r with
    | ok v => cases hb
    | error t =>
      exact ⟨m, t, store, rfl, hdot, htame, hr,
        (run_without_fault hm hdot htame {} .empty 400 hr).1 t rfl⟩

end Program

end TypedScript
