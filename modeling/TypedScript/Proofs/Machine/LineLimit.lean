import TypedScript.Proofs.Machine.Effects

/-! # A host that stops writing

The run on a host that fails to write a line once so many are recorded, next to the run on a host
that records everything. The two are the same step by step until one line too many is printed, and
the call that prints it is the last thing that the first of them does. -/

namespace TypedScript

/-- A recording host that fails to write a line once it holds `limit` of them. -/
structure Host.Limited (host : Host Recording) (limit : Nat) : Prop where
  answers : host.call = HostFunction.answer host.observe host.writeLine
  observes : host.observe = Recording.observe
  writes : ∀ line r, r.lines.size < limit →
    host.writeLine line r = Recording.host.writeLine line r
  fails : ∀ line r, limit ≤ r.lines.size →
    ∃ message, host.writeLine line r = (.error (.host message), r)

namespace Recording

variable {f : HostFunction} {w : Word} {r : Recording}

theorem limitedHost_limited (limit : Nat) : (limitedHost limit).Limited limit where
  answers := rfl
  observes := rfl
  writes _ _ h := if_pos h
  fails _ _ h := ⟨_, if_neg (Nat.not_lt.mpr h)⟩

def printed (calls : List (HostFunction × Word)) : List String :=
  calls.filterMap fun a => a.1.output? a.2

@[simp] theorem printed_nil : printed [] = [] := rfl

@[simp] theorem printed_append (before after : List (HostFunction × Word)) :
    printed (before ++ after) = printed before ++ printed after :=
  List.filterMap_append

@[simp] theorem printed_cons (f : HostFunction) (w : Word) (calls : List (HostFunction × Word)) :
    printed ((f, w) :: calls) = (f.output? w).toList ++ printed calls := by
  cases hf : f.output? w <;> simp [printed, hf]

/-- The lines are just those that the calls print. -/
def Faithful (r : Recording) : Prop := r.lines.toList = printed r.calls.toList

theorem host_call_lines :
    (host.call f w r).2.lines.toList = r.lines.toList ++ (f.output? w).toList := by
  cases f <;> simp [host, HostFunction.answer, HostFunction.output?, observe]

theorem host_call_size :
    (host.call f w r).2.lines.size = r.lines.size + (f.output? w).toList.length := by
  simpa using congrArg List.length (host_call_lines (f := f) (w := w) (r := r))

theorem Faithful.host_call (h : r.Faithful) : (host.call f w r).2.Faithful := by
  have hcalls : (host.call f w r).2.calls.toList = r.calls.toList ++ [(f, w)] :=
    host_records f w r
  have hlines : r.lines.toList = printed r.calls.toList := h
  rw [Faithful, hcalls, host_call_lines, hlines]
  simp

/-- A recording that ends with the call that prints the line behind the first `limit` ones, without
that line, next to a recording that goes on. -/
structure CutOff (limit : Nat) (full cut : Recording) (line : String) : Prop where
  lines : cut.lines.toList = full.lines.toList.take limit
  missing : full.lines.toList[limit]? = some line
  calls : ∃ before f w rest, full.calls.toList = before ++ (f, w) :: rest ∧
    printed before = full.lines.toList.take limit ∧ f.output? w = some line ∧
      cut.calls.toList = before ++ [(f, w)]

theorem Faithful.cutOff {full : Recording} {rest : List (HostFunction × Word)} {line : String}
    (h : r.Faithful) (hfull : full.Faithful)
    (hcalls : full.calls.toList = r.calls.toList ++ (f, w) :: rest) (hf : f.output? w = some line) :
    CutOff r.lines.size full (observe f w r) line := by
  have hr : r.lines.toList = printed r.calls.toList := h
  have hlines : full.lines.toList = r.lines.toList ++ line :: printed rest := by
    have hall : full.lines.toList = printed full.calls.toList := hfull
    rw [hall, hcalls, printed_append, printed_cons, hf, ← hr]
    rfl
  have htake : full.lines.toList.take r.lines.size = r.lines.toList := by
    rw [hlines, ← Array.length_toList, List.take_left]
  refine ⟨htake.symm, ?_, r.calls.toList, f, w, rest, hcalls, ?_, hf, ?_⟩
  · rw [hlines, ← Array.length_toList]
    simp
  · rw [htake, hr]
  · simp [observe]

end Recording

namespace Host.Limited

variable {host : Host Recording} {limit : Nat} {f : HostFunction} {w : Word} {r : Recording}

/-- As long as the lines stay within the limit, the answers are those of a host without one. -/
theorem call_eq (h : host.Limited limit)
    (hr : (Recording.host.call f w r).2.lines.size ≤ limit) :
    host.call f w r = Recording.host.call f w r := by
  rw [Recording.host_call_size] at hr
  rw [h.answers, HostFunction.answer, h.observes]
  cases hf : f.output? w with
  | none => simp [Recording.host, HostFunction.answer, hf]
  | some line =>
    have hsize : (Recording.observe f w r).lines.size < limit := by
      rw [hf, Option.toList_some, List.length_singleton] at hr
      exact hr
    simp [h.writes line _ hsize, Recording.host, HostFunction.answer, hf]

/-- The call that prints one line too many is recorded, and then it fails. -/
theorem call_fails (h : host.Limited limit) {line : String} (hf : f.output? w = some line)
    (hr : r.lines.size = limit) :
    ∃ message, host.call f w r = (.error (.host message), Recording.observe f w r) ∧
      host.writeLine line (Recording.observe f w r) =
        (.error (.host message), Recording.observe f w r) := by
  obtain ⟨message, hw⟩ := h.fails line (Recording.observe f w r) (Nat.le_of_eq hr.symm)
  refine ⟨message, ?_, hw⟩
  rw [h.answers, HostFunction.answer, h.observes, hf]
  simp only [hw]

end Host.Limited

namespace Machine

section Replacement

variable {σ : Type} {m : Machine σ} {host : Host σ}

/-- An instruction does the same with a host that gives the same answer, if it asks for one. -/
theorem exec_congr_host (f : Frame) (i : Instr) (s : Store σ)
    (h : ∀ a, m.asks i f.stack = some a → host.call a.1 a.2 s.host = m.host.call a.1 a.2 s.host) :
    { m with host := host }.exec f i s = m.exec f i s := by
  cases i with
  | call x =>
    have hsame : { m with host := host }.import? x = m.import? x := rfl
    rw [exec, exec, call, call, hsame]
    cases hx : m.import? x with
    | none => rfl
    | some fn =>
      rcases f with ⟨g, ls, _ | ⟨w, st⟩, labels⟩
      · rfl
      · have hcall : { m with host := host }.callHost fn w s = m.callHost fn w s := by
          rw [callHost, callHost, h (fn, w) (by simp [asks, hx])]
        simp only [Frame.pop, Exec.lift_ok_bind]
        simp only [bind, EStateM.bind, hcall]
  | _ => rfl

theorem advance_congr_host (q : Progress σ)
    (h : ∀ a, m.request? q = some a →
      host.call a.1 a.2 q.store.host = m.host.call a.1 a.2 q.store.host) :
    { m with host := host }.advance q = m.advance q := by
  rcases q with ⟨_ | ⟨⟨g, ls, st, _ | ⟨⟨_ | ⟨i, rest⟩, again⟩, outer⟩⟩, callers⟩, room, s⟩ | ⟨r, s⟩
  · rfl
  · rfl
  · rfl
  · have hexec := exec_congr_host ⟨g, ls, st, ⟨rest, again⟩ :: outer⟩ i s h
    simp only [advance, step, hexec]
    rfl
  · rfl

/-- A host that fails ends the run, and nothing but the host has changed. -/
theorem advance_of_failure {q : Progress σ} {f : HostFunction} {w : Word} {t : Trap} {h : σ}
    (hq : m.request? q = some (f, w)) (hc : m.host.call f w q.store.host = (.error t, h)) :
    m.advance q = .halt (.error t) { q.store with host := h } := by
  rcases q with ⟨_ | ⟨⟨g, ls, st, _ | ⟨⟨_ | ⟨i, rest⟩, again⟩, outer⟩⟩, callers⟩, room, s⟩ | ⟨r, s⟩
  · cases hq
  · cases hq
  · cases hq
  · change m.asks i st = some (f, w) at hq
    cases i with
    | call x =>
      rcases st with _ | ⟨v, st⟩
      · cases hq
      · obtain ⟨fn, hx, heq⟩ := Option.map_eq_some_iff.mp hq
        cases heq
        let k : Spot := ⟨g, again, outer, callers, room⟩
        have hfails : m.host.call f w s.host = (.error t, h) := hc
        change m.step (k.state ls (w :: st) (.call x :: rest) s) =
          .halt (.error t) { s with host := h }
        rw [step_import hx, hfails]
    | _ => cases hq
  · cases hq

end Replacement

/-- The store of a run on a host that records everything, after so many steps. -/
def recorded (md : Module) (c : Config) (x : String) (n : Nat) : Store Recording :=
  ((ofModule md c Recording.host).after n
    ((ofModule md c Recording.host).start x (Store.initial md c .empty))).store

variable {m : Machine Recording} {q : Progress Recording}

theorem after_lines_le (hm : m.host = Recording.host) (n j : Nat) :
    (m.after n q).store.host.lines.size ≤ (m.after (n + j) q).store.host.lines.size := by
  rw [after_add]
  refine after_keeps_host (P := fun r => _ ≤ (Recording.lines r).size) ?_ j (Nat.le_refl _)
  intro f w r h
  rw [hm, Recording.host_call_size]
  omega

/-- While the lines stay within the limit, a host that has one makes no difference. -/
theorem after_limited (hm : m.host = Recording.host) {host : Host Recording} {limit : Nat}
    (hl : host.Limited limit) (n : Nat) (h : (m.after n q).store.host.lines.size ≤ limit) :
    { m with host := host }.after n q = m.after n q := by
  induction n with
  | zero => rfl
  | succ n ih =>
    have hbefore := ih (Nat.le_trans (after_lines_le hm n 1) h)
    rw [after_succ, hbefore, after_succ]
    apply advance_congr_host
    intro a ha
    rw [hm]
    apply hl.call_eq
    rwa [after_succ, advance_host, ha, answered, hm] at h

/-- Where the lines go past the limit, there is a step that prints the line behind the last one
allowed. -/
theorem exists_crossing (hm : m.host = Recording.host) {limit n : Nat}
    (hstart : q.store.host.lines.size ≤ limit)
    (hn : limit < (m.after n q).store.host.lines.size) :
    ∃ k f w line, k < n ∧ (m.after k q).store.host.lines.size = limit ∧
      m.request? (m.after k q) = some (f, w) ∧ f.output? w = some line := by
  induction n with
  | zero => exact absurd hn (Nat.not_lt.mpr hstart)
  | succ n ih =>
    by_cases hbefore : limit < (m.after n q).store.host.lines.size
    · obtain ⟨k, f, w, line, hk, hrest⟩ := ih hbefore
      exact ⟨k, f, w, line, by omega, hrest⟩
    · rw [after_succ, advance_host] at hn
      cases ha : m.request? (m.after n q) with
      | none =>
        rw [ha] at hn
        exact absurd hn hbefore
      | some a =>
        rw [ha, answered, hm, Recording.host_call_size] at hn
        cases hf : a.1.output? a.2 with
        | none =>
          rw [hf, Option.toList_none, List.length_nil] at hn
          exact absurd hn hbefore
        | some line =>
          rw [hf, Option.toList_some, List.length_singleton] at hn
          exact ⟨n, a.1, a.2, line, by omega, by omega, ha, hf⟩

theorem after_faithful (hm : m.host = Recording.host) (hq : q.store.host.Faithful) (n : Nat) :
    (m.after n q).store.host.Faithful := by
  refine after_keeps_host ?_ n hq
  intro f w r h
  rw [hm]
  exact h.host_call

/-- What is recorded goes on with the call that a step makes. -/
theorem exists_calls_after (hm : m.host = Recording.host) {k n : Nat} {f : HostFunction} {w : Word}
    (hk : k < n) (hask : m.request? (m.after k q) = some (f, w)) :
    ∃ rest, (m.after n q).store.host.calls.toList =
      (m.after k q).store.host.calls.toList ++ (f, w) :: rest := by
  obtain ⟨j, rfl⟩ := Nat.exists_eq_add_of_lt hk
  have hrec : m.host.Records (·.calls.toList) := hm ▸ Recording.host_records
  refine ⟨m.requests j (m.advance (m.after k q)), ?_⟩
  rw [Nat.add_assoc, after_add, after_records hrec, requests, hask]
  rfl

/-- A host that fails once `limit` lines are recorded makes no difference to a run that prints no
more than these. Any other run, whether it would end or not, ends with what the host fails with: the
calls up to the one that prints the next line are recorded, the first `limit` lines are, and the
global variables and the memory are left as they were at that call. -/
theorem run_limited {host : Host Recording} {limit : Nat} (hl : host.Limited limit) (md : Module)
    (c : Config) (x : String) :
    (∀ n r s, (ofModule md c Recording.host).run n x (Store.initial md c .empty) = some (r, s) →
      s.host.lines.size ≤ limit →
        (ofModule md c host).run n x (Store.initial md c .empty) = some (r, s)) ∧
    ∀ n, limit < (recorded md c x n).host.lines.size →
      ∃ k message line s, k < n ∧
        (ofModule md c host).run (k + 1) x (Store.initial md c .empty) =
          some (.error (.host message), s) ∧
        host.writeLine line s.host = (.error (.host message), s.host) ∧
        Recording.CutOff limit (recorded md c x n).host s.host line ∧
        s.globals = (recorded md c x k).globals ∧ s.memory = (recorded md c x k).memory := by
  have hempty : ((ofModule md c Recording.host).start x
      (Store.initial md c .empty)).store.host = .empty := by
    rw [start_store]
    rfl
  have hfaithful : ((ofModule md c Recording.host).start x
      (Store.initial md c .empty)).store.host.Faithful := by
    rw [hempty]
    rfl
  constructor
  · intro n r s hrun hlines
    rw [run_eq_some_iff] at hrun ⊢
    have hsame := after_limited rfl hl n (by rw [hrun]; exact hlines)
    exact hsame.trans hrun
  · intro n hn
    have hstart : ((ofModule md c Recording.host).start x
        (Store.initial md c .empty)).store.host.lines.size ≤ limit := by
      rw [hempty]
      exact Nat.zero_le limit
    obtain ⟨k, f, w, line, hk, hfull, hask, hf⟩ := exists_crossing rfl hstart hn
    obtain ⟨message, hcall, hwrite⟩ := hl.call_fails hf hfull
    refine ⟨k, message, line, { recorded md c x k with host := _ }, hk, ?_, hwrite, ?_, rfl, rfl⟩
    -- Up to this call the two runs are one, and here the host does not answer any more.
    · have hsame := after_limited rfl hl k (Nat.le_of_eq hfull)
      rw [run_eq_some_iff, after_succ]
      refine (congrArg _ hsame).trans ?_
      exact advance_of_failure hask hcall
    · obtain ⟨rest, hrest⟩ := exists_calls_after rfl hk hask
      have hafter := after_faithful (m := ofModule md c Recording.host) rfl hfaithful
      have hcut := (hafter k).cutOff (hafter n) hrest hf
      rwa [hfull] at hcut

/-- Prints the same number for ever. -/
def chatter : Module where
  imports := [⟨"env", Symbol.printNum, .func⟩]
  globals := []
  functions := [⟨"main", some "main", [], false, ["x"],
    [.loop [.const 7, .call Symbol.printNum, .localSet "x", .br 0]]⟩]

theorem run_chatter_limited :
    2 < (recorded chatter {} "main" 40).host.lines.size ∧
    ∃ k message s, k < 40 ∧
      (ofModule chatter {} (Recording.limitedHost 2)).run (k + 1) "main"
          (Store.initial chatter {} .empty) = some (.error (.host message), s) ∧
      s.host.lines.toList = ["7", "7"] := by
  have hmore : 2 < (recorded chatter {} "main" 40).host.lines.size := by decide +kernel
  have hfirst : (recorded chatter {} "main" 40).host.lines.toList.take 2 = ["7", "7"] := by
    decide +kernel
  obtain ⟨k, message, line, s, hk, hrun, -, hcut, -, -⟩ :=
    (run_limited (Recording.limitedHost_limited 2) chatter {} "main").2 40 hmore
  exact ⟨hmore, k, message, s, hk, hrun, hcut.lines.trans hfirst⟩

end Machine

end TypedScript
