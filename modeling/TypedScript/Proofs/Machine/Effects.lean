import TypedScript.Proofs.Machine.Trace

/-! # Effects on the store

All that an instruction can do to the store, and what a run asks of its host. The calls to the host
are read off the states of a run, whatever the host does with them; a host that records its calls
has recorded just these. -/

namespace TypedScript

/-- The store that code leaves, whether it traps or not. -/
def Exec.left {σ α : Type} : EStateM.Result Trap (Store σ) α → Store σ
  | .ok _ s => s
  | .error _ s => s

namespace Machine

variable {σ : Type}

/-- The call that an instruction makes to the host, given the operands it finds. -/
def asks (m : Machine σ) : Instr → List Word → Option (HostFunction × Word)
  | .call x, w :: _ => (m.import? x).map (·, w)
  | _, _ => none

/-- What an instruction does to the store, given the operands it finds. -/
inductive Touches (m : Machine σ) (s : Store σ) : Instr → List Word → Store σ → Prop
  | nothing {i st} (h : m.asks i st = none) : Touches m s i st s
  | global {x w st s'} (h : s.setGlobal x w = .ok s') : Touches m s (.globalSet x) (w :: st) s'
  | memory {a w st s'} (h : s.storeWord a w = .ok s') : Touches m s .store (w :: a :: st) s'
  | host {x fn w st} (h : m.import? x = some fn) :
      Touches m s (.call x) (w :: st) { s with host := (m.host.call fn w s.host).2 }

@[simp] theorem left_pure {α : Type} (a : α) (s : Store σ) :
    Exec.left ((pure a : Exec σ α) s) = s := rfl

@[simp] theorem left_lift {α : Type} (r : Except Trap α) (s : Store σ) :
    Exec.left (Exec.lift r s) = s := by
  cases r <;> rfl

@[simp] theorem left_get_bind {α : Type} (f : Store σ → Exec σ α) (s : Store σ) :
    Exec.left ((get >>= f) s) = Exec.left (f s s) := rfl

@[simp] theorem left_lift_bind {α β : Type} (r : Except Trap α) (f : α → Exec σ β) (s : Store σ) :
    Exec.left ((Exec.lift r >>= f) s) =
      match r with
      | .ok a => Exec.left (f a s)
      | .error _ => s := by
  cases r <;> rfl

theorem left_update_bind {β : Type} (f : Store σ → Except Trap (Store σ)) (b : β) (s : Store σ) :
    Exec.left ((Exec.update f >>= fun _ => (pure b : Exec σ β)) s) =
      match f s with
      | .ok s' => s'
      | .error _ => s := by
  simp only [bind, EStateM.bind, Exec.update]
  cases f s <;> rfl

theorem callHost_left (m : Machine σ) {β : Type} (fn : HostFunction) (w : Word)
    (g : Word → β) (s : Store σ) :
    Exec.left ((m.callHost fn w >>= fun v => (pure (g v) : Exec σ β)) s) =
      { s with host := (m.host.call fn w s.host).2 } := by
  simp only [bind, EStateM.bind, callHost]
  rcases m.host.call fn w s.host with ⟨r, host⟩
  cases r <;> rfl

/-- Instructions that neither set a variable nor store a word nor call leave the store alone. -/
theorem left_exec (m : Machine σ) (f : Frame) (s : Store σ) {i : Instr}
    (hset : ∀ x, i ≠ .globalSet x) (hstore : i ≠ .store) (hcall : ∀ x, i ≠ .call x) :
    Exec.left (m.exec f i s) = s := by
  cases i with
  | globalSet x => exact absurd rfl (hset x)
  | store => exact absurd rfl hstore
  | call x => exact absurd rfl (hcall x)
  | brIf depth =>
    rw [exec, left_lift_bind]
    split
    · dsimp only
      split
      · rw [left_lift_bind]
        split <;> rfl
      · rfl
    · rfl
  | _ =>
    simp only [exec, left_lift_bind, left_get_bind, left_pure]
    repeat' split
    all_goals rfl

theorem leave_store (f : Frame) (callers : List Frame) (room : Nat) (s : Store σ) :
    (leave f callers room s).store = s := by
  unfold leave
  split <;> rfl

theorem enter_store {m : Machine σ} (q : State σ) (f : Func) (args : List Word) :
    (m.enter q f args).store = q.store := by
  rw [enter]
  split <;> rfl

theorem start_store (m : Machine σ) (x : String) (s : Store σ) : (m.start x s).store = s := by
  rw [start]
  cases m.export? x with
  | none => rfl
  | some f => rw [enter_store]

theorem exec_touches (m : Machine σ) (f : Frame) (i : Instr) (s : Store σ) :
    m.Touches s i f.stack (Exec.left (m.exec f i s)) := by
  cases i with
  | call x =>
    rcases f with ⟨g, ls, st, labels⟩
    rw [exec, call]
    cases hx : m.import? x with
    | some fn =>
      cases st with
      | nil => exact .nothing rfl
      | cons w st =>
        simp only [left_lift_bind, Frame.pop, callHost_left]
        exact .host hx
    | none =>
      have hasks : m.asks (.call x) st = none := by cases st <;> simp [asks, hx]
      cases hf : m.function? x with
      | none => exact .nothing hasks
      | some callee =>
        simp only [left_lift_bind, left_pure]
        split <;> exact .nothing hasks
  | globalSet x =>
    rcases f with ⟨g, ls, st, labels⟩
    cases st with
    | nil => exact .nothing rfl
    | cons w st =>
      simp only [exec, left_lift_bind, Frame.pop, left_update_bind]
      cases hs : s.setGlobal x w with
      | ok s' => exact .global hs
      | error t => exact .nothing rfl
  | store =>
    rcases f with ⟨g, ls, _ | ⟨w, _ | ⟨a, st⟩⟩, labels⟩
    · exact .nothing rfl
    · exact .nothing rfl
    · simp only [exec, left_lift_bind, Frame.pop, Exec.storeWord_eq, left_update_bind]
      cases hs : s.storeWord a w with
      | ok s' => exact .memory hs
      | error t => exact .nothing rfl
  | const _ | localGet _ | localSet _ | globalGet _ | numeric _ | eqz | load | ite _ _ | block _
  | loop _ | br _ | brIf _ | ret | nop =>
    rw [m.left_exec f s (by simp) (by simp) (by simp)]
    exact .nothing rfl

/-- The call that the next step makes to the host. -/
def request? (m : Machine σ) : Progress σ → Option (HostFunction × Word)
  | .next ⟨⟨_, _, st, ⟨i :: _, _⟩ :: _⟩ :: _, _, _⟩ => m.asks i st
  | _ => none

def requests (m : Machine σ) : Nat → Progress σ → List (HostFunction × Word)
  | 0, _ => []
  | n + 1, q => (m.request? q).toList ++ m.requests n (m.advance q)

@[simp] theorem requests_halt (m : Machine σ) (n : Nat) (r : Except Trap (Option Word))
    (s : Store σ) : m.requests n (.halt r s) = [] := by
  induction n with
  | zero => rfl
  | succ n ih => exact ih

end Machine

/-- A host that writes down every call, whatever its answer is. -/
def Host.Records {σ : Type} (host : Host σ) (log : σ → List (HostFunction × Word)) : Prop :=
  ∀ f w h, log (host.call f w h).2 = log h ++ [(f, w)]

theorem Recording.host_records : Recording.host.Records (·.calls.toList) := by
  intro f w r
  cases f <;> simp [Recording.host, HostFunction.answer, HostFunction.output?, Recording.observe]

namespace Machine

variable {σ : Type} {m : Machine σ} {log : σ → List (HostFunction × Word)}

/-- The host once it has answered, if it is asked at all. -/
def answered (m : Machine σ) (h : σ) : Option (HostFunction × Word) → σ
  | none => h
  | some (f, w) => (m.host.call f w h).2

theorem Touches.host_eq {i : Instr} {st : List Word} {s s' : Store σ} (h : m.Touches s i st s') :
    s'.host = m.answered s.host (m.asks i st) := by
  cases h with
  | nothing hasks => rw [hasks, answered]
  | global hs =>
    rw [Store.setGlobal] at hs
    split at hs
    · cases hs
    · split at hs <;> cases hs
      rfl
  | memory hs =>
    rw [Store.storeWord] at hs
    split at hs <;> cases hs
    rfl
  | host hx => simp [asks, hx, answered]

/-- A step leaves the host alone unless it asks it. -/
theorem advance_host (q : Progress σ) :
    (m.advance q).store.host = m.answered q.store.host (m.request? q) := by
  rcases q with ⟨_ | ⟨⟨g, ls, st, labels⟩, callers⟩, room, s⟩ | ⟨r, s⟩
  · rfl
  · rcases labels with _ | ⟨⟨_ | ⟨i, rest⟩, again⟩, outer⟩
    · rw [advance, step, leave_store]
      rfl
    · rfl
    · have hhost := (m.exec_touches ⟨g, ls, st, ⟨rest, again⟩ :: outer⟩ i s).host_eq
      simp only [advance, step, request?]
      cases hr : m.exec ⟨g, ls, st, ⟨rest, again⟩ :: outer⟩ i s with
      | error t s' =>
        rw [hr] at hhost
        exact hhost
      | ok act s' =>
        rw [hr] at hhost
        cases act with
        | resume f => exact hhost
        | call caller callee args =>
          rw [enter_store]
          exact hhost
  · rfl

theorem advance_records (hrec : m.host.Records log) (q : Progress σ) :
    log (m.advance q).store.host = log q.store.host ++ (m.request? q).toList := by
  rw [advance_host]
  cases m.request? q with
  | none => simp [answered]
  | some a => simp [answered, hrec a.1 a.2 q.store.host]

/-- What every answer keeps of the host, a run keeps of it. -/
theorem after_keeps_host {P : σ → Prop} (hP : ∀ f w h, P h → P (m.host.call f w h).2) (n : Nat)
    {q : Progress σ} (h : P q.store.host) : P (m.after n q).store.host := by
  induction n with
  | zero => exact h
  | succ n ih =>
    rw [after_succ, advance_host]
    cases m.request? (m.after n q) with
    | none => exact ih
    | some a => exact hP a.1 a.2 _ ih

/-- A host that records its calls has recorded what the run has asked for. -/
theorem after_records (hrec : m.host.Records log) (n : Nat) (q : Progress σ) :
    log (m.after n q).store.host = log q.store.host ++ m.requests n q := by
  induction n generalizing q with
  | zero => simp [requests]
  | succ n ih => rw [after, ih, advance_records hrec, requests, List.append_assoc]

end Machine

end TypedScript
