import TypedScript.Proofs.Machine.Effects
import TypedScript.Proofs.Memory

/-! # More room

A run that ends for any other reason than a lack of memory or of calls ends in the same way on a
machine that has more of them: two machines with the same code and host go on in lock step until the
smaller one runs short. -/

namespace TypedScript

def Trap.isShortage : Trap → Bool
  | .outOfBounds .. | .outOfMemory .. | .callStackExhausted _ => true
  | .divisionByZero | .integerOverflow | .unknownFunction _ | .unknownGlobal _ | .unknownLocal ..
  | .stackUnderflow _ | .missingExport _ | .invalidBranch _ | .host _ => false

/-- A memory of `n` bytes, and the same one with zeros behind it up to `n'` bytes. -/
structure Memory.Extended (n n' : Nat) (mem mem' : Memory) : Prop where
  le : n ≤ n'
  size : mem.size = n
  extent : mem'.size = n'
  bytes : mem'.bytes = mem.bytes
  blank : ∀ a, n ≤ a → mem.byte a = 0

namespace Memory

variable {n n' : Nat} {mem mem' out : Memory} {a v w : Word} {t : Trap}

theorem extended_ofPages {p p' : Nat} (h : p ≤ p') :
    Extended (p * pageSize) (p' * pageSize) (ofPages p) (ofPages p') :=
  ⟨Nat.mul_le_mul_right pageSize h, rfl, rfl, rfl, fun _ _ => rfl⟩

theorem isShortage_of_load (h : mem.load a = .error t) : t.isShortage = true := by
  rw [load] at h
  split at h
  · cases h
  · cases h
    rfl

theorem isShortage_of_store (h : mem.store a v = .error t) : t.isShortage = true := by
  rw [store_eq] at h
  split at h
  · cases h
  · cases h
    rfl

namespace Extended

theorem contains (h : Extended n n' mem mem') (hc : mem.contains a = true) :
    mem'.contains a = true := by
  have hle := h.le
  rw [contains_iff, h.size] at hc
  rw [contains_iff, h.extent]
  omega

theorem load (h : Extended n n' mem mem') (hl : mem.load a = .ok w) : mem'.load a = .ok w := by
  rw [Memory.load] at hl ⊢
  by_cases hc : mem.contains a = true
  · rw [if_pos hc] at hl
    rw [if_pos (h.contains hc), ← hl]
    simp only [byte, h.bytes]
  · rw [if_neg hc] at hl
    cases hl

theorem store (h : Extended n n' mem mem') (hs : mem.store a v = .ok out) :
    ∃ out', mem'.store a v = .ok out' ∧ Extended n n' out out' := by
  have hfits : a.address + wordSize ≤ n := h.size ▸ fits_of_store hs
  have hblank : ∀ x, n ≤ x → out.byte x = 0 := by
    intro x hx
    have hw : wordSize = 4 := rfl
    rw [byte_store hs, if_neg (by omega), if_neg (by omega), if_neg (by omega),
      if_neg (by omega)]
    exact h.blank x hx
  have hc : mem.contains a = true := contains_iff.mpr (fits_of_store hs)
  rw [Memory.store_eq, if_pos hc] at hs
  cases hs
  rw [Memory.store_eq, if_pos (h.contains hc), h.bytes]
  exact ⟨_, rfl, h.le, h.size, h.extent, rfl, hblank⟩

end Extended

end Memory

namespace Store

variable {σ : Type} {n n' : Nat} {s s' : Store σ}

structure Roomier (n n' : Nat) (s s' : Store σ) : Prop where
  globals : s'.globals = s.globals
  memory : Memory.Extended n n' s.memory s'.memory
  host : s'.host = s.host

theorem Roomier.getGlobal (h : Roomier n n' s s') (x : String) :
    s'.getGlobal x = s.getGlobal x := by
  rw [Store.getGlobal, Store.getGlobal, h.globals]

end Store

/-- How one result leads to another: the second run gives the same and leaves a roomier store,
unless the first one has run short. -/
def Exec.Scaled {σ α : Type} (n n' : Nat) :
    EStateM.Result Trap (Store σ) α → EStateM.Result Trap (Store σ) α → Prop
  | .ok a s, r => ∃ s', r = .ok a s' ∧ Store.Roomier n n' s s'
  | .error t s, r => t.isShortage = true ∨ ∃ s', r = .error t s' ∧ Store.Roomier n n' s s'

/-- Code does the same with more memory as long as it does not run short. -/
def Exec.Scales {σ α : Type} (n n' : Nat) (x : Exec σ α) : Prop :=
  ∀ s s', Store.Roomier n n' s s' → Exec.Scaled n n' (x s) (x s')

namespace Exec.Scales

variable {σ α β : Type} {n n' : Nat}

theorem pure (a : α) : Scales n n' (Pure.pure a : Exec σ α) :=
  fun _ s' h => ⟨s', rfl, h⟩

theorem throw (t : Trap) : Scales n n' (MonadExcept.throw t : Exec σ α) :=
  fun _ s' h => .inr ⟨s', rfl, h⟩

theorem lift (r : Except Trap α) : Scales n n' (Exec.lift r : Exec σ α) := by
  cases r with
  | ok a => exact pure a
  | error t => exact throw t

theorem bind {x : Exec σ α} {f : α → Exec σ β} (hx : Scales n n' x) (hf : ∀ a, Scales n n' (f a)) :
    Scales n n' (x >>= f) := by
  intro s s' h
  have hxs := hx s s' h
  change Exec.Scaled n n' (EStateM.bind x f s) (EStateM.bind x f s')
  rw [EStateM.bind, EStateM.bind]
  cases he : x s with
  | ok a t =>
    rw [he] at hxs
    obtain ⟨t', he', ht⟩ := hxs
    rw [he']
    exact hf a t t' ht
  | error e t =>
    rw [he] at hxs
    obtain hshort | ⟨t', he', ht⟩ := hxs
    · exact .inl hshort
    · rw [he']
      exact .inr ⟨t', rfl, ht⟩

/-- What is read off the store is the same with more memory, or the read runs short. -/
theorem read {f : Store σ → Except Trap α}
    (hf : ∀ s s', Store.Roomier n n' s s' →
      f s' = f s ∨ ∃ t, f s = .error t ∧ t.isShortage = true) :
    Scales n n' (get >>= fun s => (Exec.lift (f s) : Exec σ α)) := by
  intro s s' h
  change Exec.Scaled n n' (Exec.lift (f s) s) (Exec.lift (f s') s')
  obtain heq | ⟨t, ht, hshort⟩ := hf s s' h
  · rw [heq]
    exact lift (f s) s s' h
  · rw [ht]
    exact .inl hshort

theorem getGlobal (x : String) :
    Scales n n' (get >>= fun s : Store σ => (Exec.lift (s.getGlobal x) : Exec σ Word)) :=
  read fun _ _ h => .inl (h.getGlobal x)

theorem load (a : Word) :
    Scales n n' (get >>= fun s : Store σ => (Exec.lift (s.memory.load a) : Exec σ Word)) := by
  refine read fun s s' h => ?_
  cases hl : s.memory.load a with
  | ok w => exact .inl (h.memory.load hl)
  | error t => exact .inr ⟨t, rfl, Memory.isShortage_of_load hl⟩

/-- What replaces the store does the same with more memory, or it runs short. -/
theorem update {f : Store σ → Except Trap (Store σ)}
    (hf : ∀ s s', Store.Roomier n n' s s' →
      (∃ t t', f s = .ok t ∧ f s' = .ok t' ∧ Store.Roomier n n' t t') ∨
        ∃ t, f s = .error t ∧ (t.isShortage = true ∨ f s' = .error t)) :
    Scales n n' (Exec.update f) := by
  intro s s' h
  rw [Exec.update, Exec.update]
  obtain ⟨t, t', ht, ht', hroom⟩ | ⟨t, ht, hshort | ht'⟩ := hf s s' h
  · rw [ht, ht']
    exact ⟨t', rfl, hroom⟩
  · rw [ht]
    exact .inl hshort
  · rw [ht, ht']
    exact .inr ⟨s', rfl, h⟩

/-- The heap pointer may be moved wherever it may be moved with less memory. -/
theorem setGlobal (x : String) (w : Word) :
    Scales n n' (Exec.update (σ := σ) (·.setGlobal x w)) := by
  refine update fun s s' h => ?_
  by_cases hpast : x = Symbol.heapPointer ∧ s.memory.size < w.address
  · exact .inr ⟨_, if_pos hpast, .inl rfl⟩
  · have hle : s.memory.size ≤ s'.memory.size := by
      rw [h.memory.size, h.memory.extent]
      exact h.memory.le
    have hpast' : ¬(x = Symbol.heapPointer ∧ s'.memory.size < w.address) :=
      fun hx => hpast ⟨hx.1, Nat.lt_of_le_of_lt hle hx.2⟩
    simp only [Store.setGlobal, if_neg hpast, if_neg hpast', h.globals]
    by_cases hc : s.globals.contains x = true
    · rw [if_pos hc, if_pos hc]
      exact .inl ⟨_, _, rfl, rfl, rfl, h.memory, h.host⟩
    · rw [if_neg hc, if_neg hc]
      exact .inr ⟨_, rfl, .inr rfl⟩

theorem storeWord (a w : Word) : Scales n n' (Exec.storeWord (σ := σ) a w) := by
  rw [Exec.storeWord_eq]
  refine update fun s s' h => ?_
  cases hm : s.memory.store a w with
  | ok out =>
    obtain ⟨out', hm', hout⟩ := h.memory.store hm
    simp only [Store.storeWord, hm, hm']
    exact .inl ⟨_, _, rfl, rfl, h.globals, hout, h.host⟩
  | error t =>
    have ht := Memory.isShortage_of_store hm
    simp only [Store.storeWord, hm]
    cases s.globals.find? Symbol.heapPointer with
    | none => exact .inr ⟨t, rfl, .inl ht⟩
    | some heap =>
      refine .inr ⟨_, rfl, .inl ?_⟩
      by_cases hle : heap ≤ a
      · rw [if_pos hle]
        rfl
      · rw [if_neg hle]
        exact ht

end Exec.Scales

namespace Machine

variable {σ : Type} {n n' : Nat}

open Exec

theorem callHost_scales (m : Machine σ) (f : HostFunction) (arg : Word) :
    Scales n n' (m.callHost f arg) := by
  intro s s' h
  rw [callHost, callHost, h.host]
  cases hc : m.host.call f arg s.host with
  | mk r host =>
    cases r with
    | ok w => exact ⟨_, rfl, h.globals, h.memory, rfl⟩
    | error t => exact .inr ⟨_, rfl, h.globals, h.memory, rfl⟩

theorem call_scales (m : Machine σ) (f : Frame) (x : String) : Scales n n' (m.call f x) := by
  rw [call]
  cases m.import? x with
  | some fn =>
    exact (Scales.lift _).bind fun _ => (m.callHost_scales fn _).bind fun _ => .pure _
  | none =>
    cases m.function? x with
    | none => exact .throw _
    | some callee => exact (Scales.lift _).bind fun _ => .pure _

theorem exec_scales (m : Machine σ) (f : Frame) (i : Instr) : Scales n n' (m.exec f i) := by
  cases i with
  | const w => exact .pure _
  | localGet x => exact (Scales.lift _).bind fun _ => .pure _
  | localSet x => exact (Scales.lift _).bind fun _ => (Scales.lift _).bind fun _ => .pure _
  | globalGet x => exact (Scales.getGlobal x).bind fun _ => .pure _
  | globalSet x => exact (Scales.lift _).bind fun _ => (Scales.setGlobal x _).bind fun _ => .pure _
  | call x => exact m.call_scales f x
  | numeric op =>
    exact (Scales.lift _).bind fun _ => (Scales.lift _).bind fun _ =>
      (Scales.lift _).bind fun _ => .pure _
  | eqz => exact (Scales.lift _).bind fun _ => .pure _
  | load => exact (Scales.lift _).bind fun _ => (Scales.load _).bind fun _ => .pure _
  | store =>
    exact (Scales.lift _).bind fun _ => (Scales.lift _).bind fun _ =>
      (Scales.storeWord _ _).bind fun _ => .pure _
  | ite body otherwise => exact (Scales.lift _).bind fun _ => .pure _
  | block body => exact .pure _
  | loop body => exact .pure _
  | br depth => exact (Scales.lift _).bind fun _ => .pure _
  | brIf depth =>
    refine (Scales.lift _).bind fun p => ?_
    dsimp only
    split
    · exact (Scales.lift _).bind fun _ => .pure _
    · exact .pure _
  | ret => exact .pure _
  | nop => exact .pure _

end Machine

structure State.Roomier {σ : Type} (n n' : Nat) (q q' : State σ) : Prop where
  frames : q'.frames = q.frames
  room : q.room ≤ q'.room
  store : Store.Roomier n n' q.store q'.store

/-- How a machine and one with more room have come along: side by side, or the first has run
short. -/
inductive Progress.Roomier {σ : Type} (n n' : Nat) : Progress σ → Progress σ → Prop
  | next {s s'} (h : State.Roomier n n' s s') : Roomier n n' (.next s) (.next s')
  | halt {r s s'} (h : Store.Roomier n n' s s') : Roomier n n' (.halt r s) (.halt r s')
  | short {t s q'} (h : t.isShortage = true) : Roomier n n' (.halt (.error t) s) q'

namespace Machine

variable {σ : Type} {n n' : Nat} {m : Machine σ} {d : Nat} {s s' : Store σ}

/-- What an instruction does has nothing to do with the limit on calls. -/
theorem exec_maxCallDepth (f : Frame) (i : Instr) :
    { m with maxCallDepth := d }.exec f i = m.exec f i := by
  cases i <;> rfl

theorem enter_roomier {frames : List Frame} {room room' : Nat} (hroom : room ≤ room')
    (hs : Store.Roomier n n' s s') (f : Func) (args : List Word) :
    Progress.Roomier n n' (m.enter ⟨frames, room, s⟩ f args)
      ({ m with maxCallDepth := d }.enter ⟨frames, room', s'⟩ f args) := by
  cases room with
  | zero => exact .short rfl
  | succ room =>
    cases room' with
    | zero => omega
    | succ room' => exact .next ⟨rfl, Nat.le_of_succ_le_succ hroom, hs⟩

theorem leave_roomier {room room' : Nat} (hroom : room ≤ room') (hs : Store.Roomier n n' s s')
    (f : Frame) (callers : List Frame) :
    Progress.Roomier n n' (leave f callers room s) (leave f callers room' s') := by
  unfold leave
  cases f.result with
  | error t => exact .halt hs
  | ok r =>
    cases callers with
    | nil => exact .halt hs
    | cons caller outer => exact .next ⟨rfl, Nat.succ_le_succ hroom, hs⟩

/-- One step: the machines stay side by side unless the first runs short. -/
theorem step_roomier {q q' : State σ} (h : State.Roomier n n' q q') :
    Progress.Roomier n n' (m.step q) ({ m with maxCallDepth := d }.step q') := by
  rcases q with ⟨frames, room, s⟩
  rcases q' with ⟨frames', room', s'⟩
  obtain ⟨hframes, hroom, hs⟩ := h
  dsimp only at hframes hroom hs
  subst hframes
  rcases frames' with _ | ⟨⟨g, ls, st, _ | ⟨⟨_ | ⟨i, rest⟩, again⟩, outer⟩⟩, callers⟩
  · exact .halt hs
  · exact leave_roomier hroom hs _ _
  · exact .next ⟨rfl, hroom, hs⟩
  · simp only [step, exec_maxCallDepth]
    have hexec := m.exec_scales ⟨g, ls, st, ⟨rest, again⟩ :: outer⟩ i s s' hs
    cases hr : m.exec ⟨g, ls, st, ⟨rest, again⟩ :: outer⟩ i s with
    | error t out =>
      rw [hr] at hexec
      obtain hshort | ⟨out', hr', hout⟩ := hexec
      · exact .short hshort
      · rw [hr']
        exact .halt hout
    | ok act out =>
      rw [hr] at hexec
      obtain ⟨out', hr', hout⟩ := hexec
      rw [hr']
      cases act with
      | resume f => exact .next ⟨rfl, hroom, hout⟩
      | call caller callee args => exact enter_roomier hroom hout callee args

theorem advance_roomier {q q' : Progress σ} (h : Progress.Roomier n n' q q') :
    Progress.Roomier n n' (m.advance q) ({ m with maxCallDepth := d }.advance q') := by
  cases h with
  | next h => exact step_roomier h
  | halt h => exact .halt h
  | short h => exact .short h

theorem after_roomier {q q' : Progress σ} (h : Progress.Roomier n n' q q') (i : Nat) :
    Progress.Roomier n n' (m.after i q) ({ m with maxCallDepth := d }.after i q') := by
  induction i generalizing q q' with
  | zero => exact h
  | succ i ih => exact ih (advance_roomier h)

theorem request?_roomier {q q' : State σ} (h : State.Roomier n n' q q') :
    { m with maxCallDepth := d }.request? (.next q') = m.request? (.next q) := by
  rcases q with ⟨frames, room, s⟩
  rcases q' with ⟨frames', room', s'⟩
  obtain rfl : frames' = frames := h.frames
  rcases frames' with _ | ⟨⟨g, ls, st, _ | ⟨⟨_ | ⟨i, rest⟩, again⟩, outer⟩⟩, callers⟩ <;> rfl

/-- As long as the first machine does not run short, both ask the same of the host. -/
theorem requests_roomier {q q' : Progress σ} (h : Progress.Roomier n n' q q') (i : Nat)
    (hend : ∀ t s, m.after i q = .halt (.error t) s → t.isShortage = false) :
    { m with maxCallDepth := d }.requests i q' = m.requests i q := by
  induction i generalizing q q' with
  | zero => rfl
  | succ i ih =>
    have hrest := ih (advance_roomier (d := d) h) hend
    rw [requests, requests, hrest]
    cases h with
    | next h => rw [request?_roomier h]
    | halt h => rfl
    | short h =>
      have := hend _ _ after_halt
      simp [h] at this

end Machine

def Config.pages (c : Config) (m : Module) : Nat := (c.memoryPages.or m.memoryPages?).getD 0

theorem Store.initial_roomier {σ : Type} {m : Module} {c c' : Config}
    (h : c.pages m ≤ c'.pages m) (s : σ) :
    Roomier (c.pages m * pageSize) (c'.pages m * pageSize) (initial m c s) (initial m c' s) :=
  ⟨rfl, Memory.extended_ofPages h, rfl⟩

namespace Machine

variable {σ : Type} {md : Module} {host : Host σ} {c c' : Config} {x : String} {h₀ : σ}

theorem start_roomier (host : Host σ) (x : String) (h₀ : σ) (hpages : c.pages md ≤ c'.pages md)
    (hdepth : c.maxCallDepth ≤ c'.maxCallDepth) :
    Progress.Roomier (c.pages md * pageSize) (c'.pages md * pageSize)
      ((ofModule md c host).start x (Store.initial md c h₀))
      ((ofModule md c' host).start x (Store.initial md c' h₀)) := by
  have hs := Store.initial_roomier hpages h₀
  have hexport : (ofModule md c' host).export? x = (ofModule md c host).export? x := rfl
  rw [start, start, hexport]
  cases (ofModule md c host).export? x with
  | none => exact .halt hs
  | some f => exact enter_roomier hdepth hs f []

/-- A run that ends without running short ends with the same result on a machine with more memory
and room for more calls. It makes the same calls to the host, and it leaves the same host, the same
global variables and the same memory, with zeros behind it. -/
theorem run_with_more_room (hpages : c.pages md ≤ c'.pages md)
    (hdepth : c.maxCallDepth ≤ c'.maxCallDepth) {n : Nat} {r : Except Trap (Option Word)}
    {s : Store σ} (hrun : (ofModule md c host).run n x (Store.initial md c h₀) = some (r, s))
    (hr : ∀ t, r = .error t → t.isShortage = false) :
    ∃ s', (ofModule md c' host).run n x (Store.initial md c' h₀) = some (r, s') ∧
      (ofModule md c' host).requests n
          ((ofModule md c' host).start x (Store.initial md c' h₀)) =
        (ofModule md c host).requests n ((ofModule md c host).start x (Store.initial md c h₀)) ∧
      s'.host = s.host ∧ s'.globals = s.globals ∧
      s.memory.size = c.pages md * pageSize ∧ s'.memory.size = c'.pages md * pageSize ∧
      (∀ a, a < c.pages md * pageSize → s'.memory.byte a = s.memory.byte a) ∧
      ∀ a, c.pages md * pageSize ≤ a → s'.memory.byte a = 0 := by
  have hstart := start_roomier host x h₀ hpages hdepth
  have hhalt := run_eq_some_iff.mp hrun
  have hend : ∀ t s, (ofModule md c host).after n
      ((ofModule md c host).start x (Store.initial md c h₀)) = .halt (.error t) s →
        t.isShortage = false := by
    intro t s' h
    rw [hhalt] at h
    cases h
    exact hr t rfl
  have hrequests := requests_roomier (d := c'.maxCallDepth) hstart n hend
  have hafter := after_roomier (m := ofModule md c host) (d := c'.maxCallDepth) hstart n
  rw [hhalt] at hafter
  generalize hq : Machine.after _ _ _ = q at hafter
  cases hafter with
  | @halt _ _ s' hs =>
    have hbyte : ∀ a, s'.memory.byte a = s.memory.byte a := by
      intro a
      rw [Memory.byte, Memory.byte, hs.memory.bytes]
    exact ⟨s', run_eq_some_iff.mpr hq, hrequests, hs.host, hs.globals, hs.memory.size,
      hs.memory.extent, fun a _ => hbyte a, fun a ha => (hbyte a).trans (hs.memory.blank a ha)⟩
  | short h => exact absurd h (by simp [hr _ rfl])

/-- Stores a word, prints another one and divides it by zero. -/
def divider : Module where
  imports := [⟨"env", "memory", .memory 1⟩, ⟨"env", Symbol.printNum, .func⟩]
  globals := []
  functions := [⟨"main", some "main", [], true, [],
    [.const 0, .const 7, .store, .const 5, .call Symbol.printNum, .const 0, .numeric .divS]⟩]

theorem run_divider_with_more_room :
    ∃ s s', (ofModule divider ⟨none, 1⟩ Recording.host).run 20 "main"
        (Store.initial divider ⟨none, 1⟩ .empty) = some (.error .divisionByZero, s) ∧
      (ofModule divider ⟨some 3, 9⟩ Recording.host).run 20 "main"
        (Store.initial divider ⟨some 3, 9⟩ .empty) = some (.error .divisionByZero, s') ∧
      (ofModule divider ⟨some 3, 9⟩ Recording.host).requests 20
          ((ofModule divider ⟨some 3, 9⟩ Recording.host).start "main"
            (Store.initial divider ⟨some 3, 9⟩ .empty)) = [(.printNum, 5)] ∧
      s'.memory.byte 0 = 7 ∧ s'.memory.byte 65536 = 0 := by
  have hrun : ((ofModule divider ⟨none, 1⟩ Recording.host).run 20 "main"
      (Store.initial divider ⟨none, 1⟩ .empty)).map
        (fun r => (decide (r.1 = .error .divisionByZero), r.2.memory.byte 0)) =
          some (true, 7) := by
    decide +kernel
  have hrequests : (ofModule divider ⟨none, 1⟩ Recording.host).requests 20
      ((ofModule divider ⟨none, 1⟩ Recording.host).start "main"
        (Store.initial divider ⟨none, 1⟩ .empty)) = [(.printNum, 5)] := by
    decide +kernel
  obtain ⟨⟨r, s⟩, hr, heq⟩ := Option.map_eq_some_iff.mp hrun
  simp only [Prod.mk.injEq, decide_eq_true_eq] at heq
  obtain ⟨rfl, hbyte⟩ := heq
  have hpages : (Config.mk none 1).pages divider ≤ (Config.mk (some 3) 9).pages divider := by decide
  have hend : ∀ t, (.error .divisionByZero : Except Trap (Option Word)) = .error t →
      t.isShortage = false := by
    intro t ht
    cases ht
    rfl
  obtain ⟨s', hr', hsame, -, -, -, -, hold, hnew⟩ :=
    run_with_more_room hpages (by decide) hr hend
  exact ⟨s, s', hr, hr', hsame.trans hrequests, (hold 0 (by decide)).trans hbyte,
    hnew 65536 (by decide)⟩

end Machine

end TypedScript
