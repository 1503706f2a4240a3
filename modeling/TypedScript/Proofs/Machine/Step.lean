import TypedScript.Machine.Run
import TypedScript.Proofs.Bindings
import TypedScript.Proofs.Code.Validation

/-! # Steps of the machine

What a step does, instruction by instruction, in the call that is innermost. -/

namespace TypedScript

/-- A place in the code of a call: what stays as it is while the code there runs. -/
structure Spot where
  func : Func
  /-- Where a branch to the body at hand goes on, if it is a loop. -/
  again : Option (List Instr)
  outer : List Label
  callers : List Frame
  room : Nat

namespace Spot

variable {σ : Type}

/-- The state in which the code is left to run at the spot. -/
def state (k : Spot) (locals : Bindings Word) (stack : List Word) (code : List Instr)
    (s : Store σ) : State σ :=
  ⟨⟨k.func, locals, stack, ⟨code, k.again⟩ :: k.outer⟩ :: k.callers, k.room, s⟩

/-- The state in which the call at the spot is about to end. -/
def done (k : Spot) (locals : Bindings Word) (stack : List Word) (s : Store σ) : State σ :=
  ⟨⟨k.func, locals, stack, []⟩ :: k.callers, k.room, s⟩

/-- The spot in a body that was opened in front of the code `rest`. -/
def inside (k : Spot) (rest : List Instr) (again : Option (List Instr)) : Spot :=
  { k with again, outer := ⟨rest, k.again⟩ :: k.outer }

/-- The spot in the body of a function that was called in front of the code `rest`. -/
def called (k : Spot) (locals : Bindings Word) (stack : List Word) (rest : List Instr)
    (callee : Func) (room : Nat) : Spot where
  func := callee
  again := none
  outer := []
  callers := ⟨k.func, locals, stack, ⟨rest, k.again⟩ :: k.outer⟩ :: k.callers
  room := room

end Spot

namespace Memory

theorem store_eq (m : Memory) (a w : Word) :
    m.store a w =
      if m.contains a then
        .ok { m with
          bytes := (((m.bytes.set a.address (w.byte 0)).set (a.address + 1) (w.byte 1)).set
            (a.address + 2) (w.byte 2)).set (a.address + 3) (w.byte 3) }
      else .error (.outOfBounds a.address m.size) := by
  by_cases hc : m.contains a = true
  · simp only [store, write, if_pos hc]
  · simp only [store, write, if_neg hc]

/-- A write that fails changes nothing. -/
theorem write_eq (m : Memory) (a w : Word) :
    write a w m =
      match m.store a w with
      | .ok m' => .ok () m'
      | .error t => .error t m := by
  by_cases hc : m.contains a = true
  · simp only [store, write, if_pos hc]
  · simp only [store, write, if_neg hc]

end Memory

def Store.storeWord {σ : Type} (s : Store σ) (a w : Word) : Except Trap (Store σ) :=
  match s.memory.store a w, s.globals.find? Symbol.heapPointer with
  | .ok memory, _ => .ok { s with memory }
  | .error t, some heap => .error (if heap ≤ a then .outOfMemory heap s.memory.size else t)
  | .error t, none => .error t

namespace Exec

variable {σ α β : Type} {s : Store σ} {f : α → Exec σ β}

@[simp] theorem pure_run {a : α} : (pure a : Exec σ α) s = .ok a s := rfl

@[simp] theorem get_bind {f : Store σ → Exec σ β} :
    ((get : Exec σ (Store σ)) >>= f) s = f s s := rfl

@[simp] theorem lift_ok_bind {a : α} : ((lift (.ok a) : Exec σ α) >>= f) s = f a s := rfl

@[simp] theorem lift_error_bind {t : Trap} :
    ((lift (.error t) : Exec σ α) >>= f) s = .error t s := rfl

@[simp] theorem lift_ok_map {a : α} {f : α → β} :
    (f <$> (lift (.ok a) : Exec σ α)) s = .ok (f a) s := rfl

@[simp] theorem lift_error_map {t : Trap} {f : α → β} :
    (f <$> (lift (.error t) : Exec σ α)) s = .error t s := rfl

theorem update_map {r : Store σ → Except Trap (Store σ)} {f : Unit → β} :
    (f <$> update r) s =
      match r s with
      | .ok s' => .ok (f ()) s'
      | .error t => .error t s := by
  cases h : r s <;> simp only [update, h, Functor.map, EStateM.map]

@[simp] theorem storeWord_eq (a w : Word) :
    storeWord a w = update (σ := σ) (·.storeWord a w) := by
  funext s
  rw [storeWord, update, Memory.write_eq, Store.storeWord]
  cases s.memory.store a w with
  | ok mem => rfl
  | error t => cases s.globals.find? Symbol.heapPointer <;> rfl

end Exec

namespace Machine

variable {σ : Type} {m : Machine σ} {k : Spot} {ls : Bindings Word} {st : List Word}
  {code : List Instr} {s : Store σ}

theorem foldl_last {α : Type} (p : α → Bool) (xs : List α) (found : Option α) :
    xs.foldl (fun found x => if p x then some x else found) found =
      (xs.filter p).getLast?.or found := by
  induction xs generalizing found with
  | nil => simp
  | cons x rest ih =>
    rw [List.foldl_cons, ih, List.filter_cons]
    cases hp : p x with
    | false => simp
    | true =>
      rw [if_pos rfl, if_pos rfl, List.getLast?_cons]
      cases (rest.filter p).getLast? with
      | none => rfl
      | some y => rfl

theorem function?_eq (m : Machine σ) (x : String) :
    m.function? x = (m.module.functions.filter (·.name == x)).getLast? := by
  rw [function?, foldl_last, Option.or_none]

theorem export?_eq (m : Machine σ) (x : String) :
    m.export? x = (m.module.functions.filter (·.exportName == some x)).getLast? := by
  rw [export?, foldl_last, Option.or_none]

theorem import?_of_importsHost (m : Machine σ) {x : String} (h : m.module.importsHost x = true) :
    ∃ fn, m.import? x = some fn := by
  obtain ⟨hx, hi⟩ := Bool.and_eq_true_iff.mp h
  rw [import?, if_pos hi, ← Option.isSome_iff_exists, HostFunction.ofName?, List.find?_isSome]
  obtain ⟨fn, hfn, hname⟩ := List.mem_map.mp
    (show x ∈ HostFunction.all.map HostFunction.name from List.contains_iff_mem.mp hx)
  exact ⟨fn, hfn, beq_iff_eq.mpr hname⟩

theorem import?_eq_none (m : Machine σ) {x : String} (h : m.module.importsHost x = false) :
    m.import? x = none := by
  rw [import?]
  split
  · next hi =>
    rw [HostFunction.ofName?, List.find?_eq_none]
    intro fn hfn hname
    have hx : x ∈ Symbol.hostFunctions :=
      (List.mem_map.mpr ⟨fn, hfn, beq_iff_eq.mp hname⟩ : x ∈ HostFunction.all.map HostFunction.name)
    simp [Module.importsHost, hx, hi] at h
  · rfl

theorem step_const {w : Word} :
    m.step (k.state ls st (.const w :: code) s) = .next (k.state ls (w :: st) code s) := rfl

theorem step_localGet {x : String} {w : Word} (h : ls.find? x = some w) :
    m.step (k.state ls st (.localGet x :: code) s) = .next (k.state ls (w :: st) code s) := by
  simp [step, Spot.state, exec, Frame.getLocal, Frame.push, h]

theorem step_localSet {x : String} {w : Word} (h : ls.contains x = true) :
    m.step (k.state ls (w :: st) (.localSet x :: code) s) =
      .next (k.state (ls.insert x w) st code s) := by
  simp [step, Spot.state, exec, Frame.pop, Frame.setLocal, h]

theorem step_globalGet {x : String} {w : Word} (h : s.globals.find? x = some w) :
    m.step (k.state ls st (.globalGet x :: code) s) = .next (k.state ls (w :: st) code s) := by
  simp [step, Spot.state, exec, Store.getGlobal, Frame.push, h]

theorem step_globalSet {x : String} {w : Word} :
    m.step (k.state ls (w :: st) (.globalSet x :: code) s) =
      match s.setGlobal x w with
      | .ok s' => .next (k.state ls st code s')
      | .error t => .halt (.error t) s := by
  cases h : s.setGlobal x w <;> simp [step, Spot.state, exec, Frame.pop, Exec.update_map, h]

theorem step_numeric {op : NumericOp} {l r : Word} :
    m.step (k.state ls (r :: l :: st) (.numeric op :: code) s) =
      match op.eval l r with
      | .ok w => .next (k.state ls (w :: st) code s)
      | .error t => .halt (.error t) s := by
  cases h : op.eval l r <;> simp [step, Spot.state, exec, Frame.pop, Frame.push, h]

theorem step_eqz {w : Word} :
    m.step (k.state ls (w :: st) (.eqz :: code) s) =
      .next (k.state ls (Word.ofBool (w = 0) :: st) code s) := rfl

theorem step_load {a : Word} :
    m.step (k.state ls (a :: st) (.load :: code) s) =
      match s.memory.load a with
      | .ok w => .next (k.state ls (w :: st) code s)
      | .error t => .halt (.error t) s := by
  cases h : s.memory.load a <;> simp [step, Spot.state, exec, Frame.pop, Frame.push, h]

theorem step_store {a w : Word} :
    m.step (k.state ls (w :: a :: st) (.store :: code) s) =
      match s.storeWord a w with
      | .ok s' => .next (k.state ls st code s')
      | .error t => .halt (.error t) s := by
  cases h : s.storeWord a w <;> simp [step, Spot.state, exec, Frame.pop, Exec.update_map, h]

theorem step_ite {body otherwise : List Instr} {w : Word} :
    m.step (k.state ls (w :: st) (.ite body otherwise :: code) s) =
      .next ((k.inside code none).state ls st (if w ≠ 0 then body else otherwise) s) := rfl

theorem step_block {body : List Instr} :
    m.step (k.state ls st (.block body :: code) s) =
      .next ((k.inside code none).state ls st body s) := rfl

theorem step_loop {body : List Instr} :
    m.step (k.state ls st (.loop body :: code) s) =
      .next ((k.inside code (some body)).state ls st body s) := rfl

theorem step_ret : m.step (k.state ls st (.ret :: code) s) = .next (k.done ls st s) := rfl

theorem step_nop :
    m.step (k.state ls st (.nop :: code) s) = .next (k.state ls st code s) := rfl

/-- A body that has run to its end is left. -/
theorem step_end :
    m.step (k.state ls st [] s) =
      .next ⟨⟨k.func, ls, st, k.outer⟩ :: k.callers, k.room, s⟩ := rfl

theorem step_end_inside {rest : List Instr} {again : Option (List Instr)} :
    m.step ((k.inside rest again).state ls st [] s) = .next (k.state ls st rest s) := rfl

theorem step_br {depth : Nat} :
    m.step (k.state ls st (.br depth :: code) s) =
      match Frame.branch ⟨k.func, ls, st, ⟨code, k.again⟩ :: k.outer⟩ depth with
      | .ok f => .next ⟨f :: k.callers, k.room, s⟩
      | .error t => .halt (.error t) s := by
  cases h : Frame.branch ⟨k.func, ls, st, ⟨code, k.again⟩ :: k.outer⟩ depth <;>
    simp [step, Spot.state, exec, h]

/-- A branch past a loop leaves the block around it. -/
theorem step_br_one {rest inner : List Instr} {again : Option (List Instr)} :
    m.step (((k.inside rest none).inside inner again).state ls st (.br 1 :: code) s) =
      .next (k.state ls st rest s) := rfl

/-- A branch to a loop starts it again. -/
theorem step_br_zero {rest body : List Instr} :
    m.step ((k.inside rest (some body)).state ls st (.br 0 :: code) s) =
      .next ((k.inside rest (some body)).state ls st body s) := rfl

theorem step_brIf_zero {depth : Nat} :
    m.step (k.state ls (0 :: st) (.brIf depth :: code) s) = .next (k.state ls st code s) := rfl

theorem step_brIf {depth : Nat} {w : Word} (h : w ≠ 0) :
    m.step (k.state ls (w :: st) (.brIf depth :: code) s) =
      m.step (k.state ls st (.br depth :: code) s) := by
  simp [step, Spot.state, exec, Frame.pop, h]

theorem step_import {x : String} {fn : HostFunction} {w : Word} (h : m.import? x = some fn) :
    m.step (k.state ls (w :: st) (.call x :: code) s) =
      match m.host.call fn w s.host with
      | (.ok r, host) => .next (k.state ls (r :: st) code { s with host })
      | (.error t, host) => .halt (.error t) { s with host } := by
  rcases hc : m.host.call fn w s.host with ⟨r, host⟩
  cases r <;>
    simp [step, Spot.state, exec, call, h, Frame.pop, Frame.push, callHost, hc, Functor.map,
      EStateM.map]

theorem step_call {x : String} {callee : Func} (hi : m.import? x = none)
    (hf : m.function? x = some callee) (hn : callee.params.length ≤ st.length) :
    m.step (k.state ls st (.call x :: code) s) =
      m.enter ⟨⟨k.func, ls, st.drop callee.params.length, ⟨code, k.again⟩ :: k.outer⟩ :: k.callers,
        k.room, s⟩ callee (st.take callee.params.length).reverse := by
  simp [step, Spot.state, exec, call, hi, hf, Frame.popArgs, hn]

/-- A function is entered with its arguments on the stack, the last one on top. -/
theorem step_call_enter {x : String} {callee : Func} {args : List Word} {room : Nat}
    (hi : m.import? x = none) (hf : m.function? x = some callee)
    (hn : args.length = callee.params.length) (hr : k.room = room + 1) :
    m.step (k.state ls (args.reverse ++ st) (.call x :: code) s) =
      .next ((k.called ls st code callee room).state (Frame.enter callee args).locals []
        callee.body s) := by
  have hlen : args.reverse.length = callee.params.length := by rw [List.length_reverse, hn]
  rw [step_call hi hf (by simp [hn]), List.drop_left' hlen, List.take_left' hlen,
    List.reverse_reverse, enter, hr]
  rfl

theorem step_call_exhausted {x : String} {callee : Func} {args : List Word}
    (hi : m.import? x = none) (hf : m.function? x = some callee)
    (hn : args.length = callee.params.length) (hr : k.room = 0) :
    m.step (k.state ls (args.reverse ++ st) (.call x :: code) s) =
      .halt (.error (.callStackExhausted m.maxCallDepth)) s := by
  rw [step_call hi hf (by simp [hn]), enter, hr]

/-- A call gives its topmost operand back to the caller. -/
theorem step_done {callee : Func} {ls' : Bindings Word} {st' : List Word} {w : Word} {room : Nat}
    (hc : callee.hasResult = true) (hr : k.room = room + 1) :
    m.step ((k.called ls st code callee room).done ls' (w :: st') s) =
      .next (k.state ls (w :: st) code s) := by
  simp [step, Spot.done, Spot.called, leave, Frame.result, hc, Frame.receive, Frame.push,
    Spot.state, hr]

end Machine

end TypedScript
