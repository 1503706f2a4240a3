import TypedScript.Proofs.Heap.Emission
import Mathlib.Algebra.GroupWithZero.Nat

/-! # The heap ledger

Every construction of a run stands in a ledger that says when it began, what it wrote and where. The
end of the heap is known from the ledger at every step. -/

namespace TypedScript

/-- An object that was constructed: the step at which its code began, the words that its fields
start with, and its address. -/
structure Construction where
  start : Nat
  words : List Word
  address : Word

namespace Construction

variable {σ : Type}

def finish (c : Construction) : Nat := c.start + (allocation c.words).length

def size (c : Construction) : Nat := c.words.length * wordSize

/-- The machine runs the code of the construction from its first to its last instruction and is left
with the address on the stack. -/
def Completed (m : Machine σ) (q : Progress σ) (c : Construction) : Prop :=
  ∃ (k : Spot) (ls : Bindings Word) (st : List Word) (rest : List Instr) (s s' : Store σ),
    m.after c.start q = .next (k.state ls st (allocation c.words ++ rest) s) ∧
    m.after c.finish q = .next (k.state ls (c.address :: st) rest s')

def total (cs : List Construction) : Nat := (cs.map (·.words.length)).sum

theorem total_snoc (cs : List Construction) (c : Construction) :
    total (cs ++ [c]) = total cs + c.words.length := by
  simp [total]

end Construction

def Progress.AtAllocation {σ : Type} (ws : List Word) (q : Progress σ) : Prop :=
  ∃ (k : Spot) (ls : Bindings Word) (st : List Word) (rest : List Instr) (s : Store σ),
    q = .next (k.state ls st (allocation ws ++ rest) s)

theorem Spot.state_inj {σ : Type} {k k' : Spot} {ls ls' : Bindings Word} {st st' : List Word}
    {code code' : List Instr} {s s' : Store σ}
    (h : Progress.next (k.state ls st code s) = .next (k'.state ls' st' code' s')) :
    ls = ls' ∧ st = st' ∧ code = code' ∧ s = s' := by
  simp only [Spot.state, Progress.next.injEq, State.mk.injEq, List.cons.injEq, Frame.mk.injEq,
    Label.mk.injEq] at h
  exact ⟨h.1.1.2.1, h.1.1.2.2.1, h.1.1.2.2.2.1.1, h.2.2⟩

theorem Progress.AtAllocation.unique {σ : Type} {q : Progress σ} {ws ws' : List Word}
    (h : q.AtAllocation ws) (h' : q.AtAllocation ws') : ws = ws' := by
  obtain ⟨k, ls, st, rest, s, rfl⟩ := h
  obtain ⟨k', ls', st', rest', s', heq⟩ := h'
  exact (allocation_append_inj (Spot.state_inj heq).2.2.1).1

theorem Construction.Completed.atAllocation {σ : Type} {m : Machine σ} {q : Progress σ}
    {c : Construction} (h : c.Completed m q) : (m.after c.start q).AtAllocation c.words := by
  obtain ⟨k, ls, st, rest, s, s', hstart, -⟩ := h
  exact ⟨k, ls, st, rest, s, hstart⟩

/-- The constructions that are completed after a number of steps, taken where no construction is
under way. -/
inductive Machine.Ledger {σ : Type} (m : Machine σ) (q : Progress σ) :
    Nat → List Construction → Prop
  | start : Ledger m q 0 []
  | step {n cs} (h : Ledger m q n cs) (hna : ∀ ws, ¬ (m.after n q).AtAllocation ws) :
      Ledger m q (n + 1) cs
  | trap {n cs ws r s} (h : Ledger m q n cs) (hat : (m.after n q).AtAllocation ws)
      (hend : m.after (n + (allocation ws).length) q = .halt r s) :
      Ledger m q (n + (allocation ws).length) cs
  | construct {cs c} (h : Ledger m q c.start cs) (hc : c.Completed m q) :
      Ledger m q c.finish (cs ++ [c])

/-- A run that is disciplined, from a first end of the heap on. -/
structure Machine.Thrifty {σ : Type} (m : Machine σ) (q : Progress σ) (P : List Word → Prop)
    (base size : Nat) : Prop where
  functions : ∀ g ∈ m.module.functions, Disciplined P g.body
  tidy : q.Tidy P
  heap : ∃ h : Word, q.store.globals.find? Symbol.heapPointer = some h ∧ h.address = base
  memory : q.store.memory.size = size
  addressable : size < 2 ^ 32

/-- A disciplined run in which no object is too large for its offsets to be words. -/
structure Machine.Allocates {σ : Type} (m : Machine σ) (q : Progress σ) (P : List Word → Prop)
    (base size : Nat) : Prop extends Machine.Thrifty m q P base size where
  small : ∀ ws, P ws → ws.length < 2 ^ 30

structure Construction.Placed {σ : Type} (m : Machine σ) (q : Progress σ) (base size : Nat)
    (c : Construction) : Prop where
  completed : c.Completed m q
  heap : (m.after c.start q).store.globals.find? Symbol.heapPointer = some c.address
  base_le : base ≤ c.address.address
  inside : c.address.address + c.size ≤ size
  written : ∀ i w, c.words[i]? = some w →
    (m.after c.finish q).store.memory.load (c.address + Int32.ofNat (i * wordSize)) = .ok w

/-- What a ledger says about the machine after `n` steps. -/
structure Machine.Balanced {σ : Type} (m : Machine σ) (q : Progress σ) (P : List Word → Prop)
    (base size n : Nat) (cs : List Construction) : Prop where
  heap : ∃ h : Word, (m.after n q).store.globals.find? Symbol.heapPointer = some h ∧
    h.address = base + Construction.total cs * wordSize
  memory : (m.after n q).store.memory.size = size
  bounded : cs ≠ [] → base + Construction.total cs * wordSize ≤ size
  placed : ∀ c ∈ cs, c.Placed m q base size ∧ P c.words
  past : ∀ c ∈ cs, c.finish ≤ n ∧
    c.address.address + c.size ≤ base + Construction.total cs * wordSize
  ordered : cs.Pairwise fun c d =>
    c.finish ≤ d.start ∧ c.address.address + c.size ≤ d.address.address

section

variable {σ : Type} {m : Machine σ} {q : Progress σ} {P : List Word → Prop} {base size n : Nat}
  {cs : List Construction}

namespace Machine

theorem Balanced.of_keepsHeap {n' : Nat} (h : m.Balanced q P base size n cs) (hn : n ≤ n')
    (hk : (m.after n q).store.KeepsHeap (m.after n' q).store) :
    m.Balanced q P base size n' cs := by
  obtain ⟨w, hw, haddr⟩ := h.heap
  refine ⟨⟨w, hk.heap.trans hw, haddr⟩, hk.size.trans h.memory, h.bounded, h.placed, ?_, h.ordered⟩
  intro c hc
  exact ⟨Nat.le_trans (h.past c hc).1 hn, (h.past c hc).2⟩

/-- Behind an allocation the code is as disciplined as in front of it. -/
theorem tidy_of_allocation {k : Spot} {ls : Bindings Word} {st : List Word} {ws : List Word}
    {rest : List Instr} {s : Store σ}
    (h : State.Tidy P (k.state ls st (allocation ws ++ rest) s)) :
    P ws ∧ ∀ st' s', State.Tidy P (Spot.state k ls st' rest s' : State σ) := by
  have hf : Frame.Tidy P ⟨k.func, ls, st, ⟨allocation ws ++ rest, k.again⟩ :: k.outer⟩ :=
    h _ List.mem_cons_self
  obtain ⟨hcode, hagain⟩ := hf _ List.mem_cons_self
  obtain ⟨hw, hrest⟩ := hcode.of_allocation
  refine ⟨hw, fun st' s' g hg => ?_⟩
  rcases List.mem_cons.mp hg with rfl | hg
  · exact hf.tail.cons ⟨hrest, hagain⟩
  · exact h g (List.mem_cons_of_mem _ hg)

theorem advance_tidy (ha : m.Thrifty q P base size) {q' : Progress σ} (h : q'.Tidy P)
    (hna : ∀ ws, ¬ q'.AtAllocation ws) :
    (m.advance q').Tidy P ∧ q'.store.KeepsHeap (m.advance q').store := by
  cases q' with
  | halt r s => exact ⟨trivial, rfl, rfl⟩
  | next t =>
    refine step_tidy ha.functions h ?_
    rintro k ls st ws rest s rfl
    exact hna ws ⟨k, ls, st, rest, s, rfl⟩

/-- A construction that is completed has put its words where the heap ended. -/
theorem completed_allocated {c : Construction} (hc : c.Completed m q) {h : Word}
    (hheap : (m.after c.start q).store.globals.find? Symbol.heapPointer = some h)
    (hsize : (m.after c.start q).store.memory.size < 2 ^ 32) :
    h = c.address ∧
      (m.after c.start q).store.Allocated c.address c.words (m.after c.finish q).store := by
  obtain ⟨k, ls, st, rest, s, s', hstart, hfinish⟩ := hc
  have hrun := hfinish
  rw [Construction.finish, after_add, hstart] at hrun
  rw [hstart, Progress.store_state] at hheap hsize
  rcases allocation_run m k ls st rest c.words hheap hsize with
    ⟨r, s₁, hhalt⟩ | ⟨s₁, hend, halloc⟩
  · rw [hhalt] at hrun
    cases hrun
  · obtain ⟨rfl, rfl⟩ : h = c.address ∧ s₁ = s' := by
      rw [hend] at hrun
      simpa [Spot.state] using hrun
    rw [hstart, hfinish]
    exact ⟨rfl, halloc⟩

/-- An allocation that is completed moves the end of the heap by the words that it wrote. -/
theorem Balanced.construct {c : Construction} (ha : m.Thrifty q P base size)
    (ht : (m.after c.start q).Tidy P) (hb : m.Balanced q P base size c.start cs)
    (hc : c.Completed m q) :
    (m.after c.finish q).Tidy P ∧ m.Balanced q P base size c.finish (cs ++ [c]) := by
  obtain ⟨h, hheap, haddr⟩ := hb.heap
  have hmem := hb.memory
  have hsmall := ha.addressable
  obtain ⟨rfl, halloc⟩ := completed_allocated hc hheap (hmem ▸ hsmall)
  have hfits : c.address.address + c.words.length * wordSize ≤ size := hmem ▸ halloc.fits
  have htotal : base + Construction.total (cs ++ [c]) * wordSize =
      c.address.address + c.words.length * wordSize := by
    rw [Construction.total_snoc, Nat.add_mul, haddr, Nat.add_assoc]
  have hnext := Word.address_add_ofNat (w := c.address) (n := c.words.length * wordSize) (by omega)
  have htidy : P c.words ∧ (m.after c.finish q).Tidy P := by
    obtain ⟨k, ls, st, rest, s, s', hstart, hfinish⟩ := id hc
    rw [hstart] at ht
    rw [hfinish]
    exact ⟨(tidy_of_allocation ht).1, (tidy_of_allocation ht).2 _ _⟩
  refine ⟨htidy.2, ⟨c.address + Int32.ofNat (c.words.length * wordSize), ?_,
    hnext.trans htotal.symm⟩, halloc.size.trans hmem, fun _ => by omega, ?_, ?_, ?_⟩
  · rw [halloc.globals]
    exact Bindings.find?_insert_self _ _ _
  · intro d hd
    rcases List.mem_append.mp hd with hd | hd
    · exact hb.placed d hd
    · obtain rfl := List.mem_singleton.mp hd
      exact ⟨⟨hc, hheap, by omega, hfits, halloc.written⟩, htidy.1⟩
  · intro d hd
    rcases List.mem_append.mp hd with hd | hd
    · obtain ⟨hbefore, hbelow⟩ := hb.past d hd
      exact ⟨Nat.le_trans hbefore (Nat.le_add_right _ _), by omega⟩
    · obtain rfl := List.mem_singleton.mp hd
      exact ⟨Nat.le_refl _, Nat.le_of_eq htotal.symm⟩
  · refine List.pairwise_append.mpr ⟨hb.ordered, List.pairwise_singleton _ _, ?_⟩
    intro d hd c' hc'
    obtain rfl := List.mem_singleton.mp hc'
    obtain ⟨hbefore, hbelow⟩ := hb.past d hd
    exact ⟨hbefore, by omega⟩

/-- The ledger is kept step by step. -/
theorem Ledger.balanced (ha : m.Thrifty q P base size) (h : m.Ledger q n cs) :
    (m.after n q).Tidy P ∧ m.Balanced q P base size n cs := by
  induction h with
  | start =>
    obtain ⟨w, hw, haddr⟩ := ha.heap
    refine ⟨ha.tidy, ⟨w, hw, ?_⟩, ha.memory, by simp, by simp, by simp, .nil⟩
    simpa [Construction.total] using haddr
  | @step n cs h hna ih =>
    have hstep := advance_tidy ha ih.1 hna
    rw [← after_succ] at hstep
    exact ⟨hstep.1, ih.2.of_keepsHeap (Nat.le_succ n) hstep.2⟩
  | @trap n cs ws r s h hat hend ih =>
    obtain ⟨k, ls, st, rest, s₀, hat⟩ := hat
    have hhalt := hend
    rw [after_add, hat] at hhalt
    refine ⟨by rw [hend]; trivial, ih.2.of_keepsHeap (Nat.le_add_right n _) ?_⟩
    rw [hat, hend]
    exact (allocation_halts hhalt).keepsHeap
  | construct h hc ih => exact ih.2.construct ha ih.1 hc

/-- No construction begins while another one is under way. -/
theorem not_atAllocation {b j : Nat} {ws ws' : List Word} (hat : (m.after b q).AtAllocation ws)
    (hlen : ws.length < 2 ^ 30) (hj : 0 < j) (hlt : j < (allocation ws).length) :
    ¬ (m.after (b + j) q).AtAllocation ws' := by
  obtain ⟨k, ls, st, rest, s, hat⟩ := hat
  rintro ⟨k', ls', st', rest', s', hat'⟩
  have hquiet := after_allocation m k ls st rest s hlt
  rw [← hat, ← after_add, hat'] at hquiet
  generalize hq : Progress.next (k'.state ls' st' (allocation ws' ++ rest') s') = q' at hquiet
  cases hquiet with
  | halt => cases hq
  | next => exact drop_allocation_ne hj hlen hlt (Spot.state_inj hq).2.2.1.symm

theorem completed_unique {c d : Construction} (hc : c.Completed m q) (hd : d.Completed m q)
    (hstart : c.start = d.start) : c = d := by
  have hwords : c.words = d.words := hc.atAllocation.unique (hstart ▸ hd.atAllocation)
  obtain ⟨k, ls, st, rest, s, s', -, hfinish⟩ := hc
  obtain ⟨k', ls', st', rest', t, t', -, hfinish'⟩ := hd
  have hsame : c.finish = d.finish := by
    rw [Construction.finish, Construction.finish, hstart, hwords]
  rw [hsame, hfinish'] at hfinish
  have haddress : d.address = c.address := (List.cons.inj (Spot.state_inj hfinish).2.1).1
  obtain ⟨start, words, address⟩ := c
  obtain ⟨start', words', address'⟩ := d
  simp only at hstart hwords haddress
  rw [hstart, hwords, haddress]

theorem le_of_atAllocation {b : Nat} {ws ws' : List Word} (hlen : ws.length < 2 ^ 30)
    (hat : (m.after b q).AtAllocation ws) (hat' : (m.after n q).AtAllocation ws') (hb : b < n) :
    b + (allocation ws).length ≤ n := by
  obtain ⟨j, rfl⟩ := Nat.exists_eq_add_of_le (Nat.le_of_lt hb)
  by_contra hlt
  exact not_atAllocation hat hlen (by omega) (by omega) hat'

theorem Ledger.length_lt (ha : m.Allocates q P base size) (h : m.Ledger q n cs) {ws : List Word}
    (hat : (m.after n q).AtAllocation ws) : ws.length < 2 ^ 30 := by
  obtain ⟨k, ls, st, rest, s, hat⟩ := hat
  have htidy := (h.balanced ha.toThrifty).1
  rw [hat] at htidy
  exact ha.small ws (tidy_of_allocation htidy).1

/-- What began and was completed stands in the ledger. -/
theorem Ledger.complete (ha : m.Allocates q P base size) (h : m.Ledger q n cs) {c : Construction}
    (hc : c.Completed m q) (hn : c.start < n) : c ∈ cs := by
  induction h with
  | start => omega
  | @step n cs h hna ih =>
    by_cases heq : c.start = n
    · exact absurd (heq ▸ hc.atAllocation) (hna c.words)
    · exact ih (by omega)
  | @trap n cs ws r s h hat hend ih =>
    by_cases heq : c.start = n
    · obtain ⟨k, ls, st, rest, s, s', -, hfinish⟩ := id hc
      have hwords : c.words = ws := hc.atAllocation.unique (heq ▸ hat)
      rw [Construction.finish, heq, hwords, hend] at hfinish
      cases hfinish
    · have hapart := le_of_atAllocation (h.length_lt ha hat) hat hc.atAllocation
      exact ih (by omega)
  | @construct cs d h hd ih =>
    by_cases heq : c.start = d.start
    · rw [completed_unique hc hd heq]
      exact List.mem_append_right _ List.mem_cons_self
    · have hapart := le_of_atAllocation (h.length_lt ha hd.atAllocation) hd.atAllocation
        hc.atAllocation
      rw [Construction.finish] at hn
      exact List.mem_append_left _ (ih (by omega))

/-- The constructions that are completed after `n` steps. One more may be under way. -/
def Built (m : Machine σ) (q : Progress σ) (n : Nat) (cs : List Construction) : Prop :=
  ∃ b, m.Ledger q b cs ∧ b ≤ n ∧
    (b = n ∨ ∃ ws, (m.after b q).AtAllocation ws ∧ n < b + (allocation ws).length)

/-- A step completes one construction or none. -/
theorem Built.succ (ha : m.Thrifty q P base size) (h : m.Built q n cs) :
    m.Built q (n + 1) cs ∨ ∃ c, c.finish = n + 1 ∧ m.Built q (n + 1) (cs ++ [c]) := by
  obtain ⟨b, hb, hle, hat⟩ := h
  by_cases hna : ∀ ws, ¬ (m.after b q).AtAllocation ws
  · obtain rfl := hat.resolve_right fun ⟨ws, hat, _⟩ => hna ws hat
    exact .inl ⟨b + 1, .step hb hna, Nat.le_refl _, .inl rfl⟩
  · obtain ⟨ws, hws⟩ : ∃ ws, (m.after b q).AtAllocation ws := by simpa using hna
    have hlen := length_allocation ws
    have hlt : n < b + (allocation ws).length := by
      rcases hat with rfl | ⟨ws', hws', hlt⟩
      · omega
      · rwa [hws.unique hws']
    by_cases hlast : n + 1 < b + (allocation ws).length
    · exact .inl ⟨b, hb, by omega, .inr ⟨ws, hws, hlast⟩⟩
    · have hn : n + 1 = b + (allocation ws).length := by omega
      obtain ⟨k, ls, st, rest, s, hstate⟩ := id hws
      obtain ⟨h, hheap, -⟩ := (hb.balanced ha).2.heap
      have hmem := (hb.balanced ha).2.memory
      rw [hstate, Progress.store_state] at hheap hmem
      rcases allocation_run m k ls st rest ws hheap (hmem ▸ ha.addressable) with
        ⟨r, s', hrun⟩ | ⟨s', hrun, -⟩
      · rw [← hstate, ← after_add] at hrun
        exact .inl ⟨_, .trap hb hws hrun, Nat.le_of_eq hn.symm, .inl hn.symm⟩
      · rw [← hstate, ← after_add] at hrun
        have hc : Construction.Completed m q ⟨b, ws, h⟩ :=
          ⟨k, ls, st, rest, s, s', hstate, hrun⟩
        exact .inr ⟨⟨b, ws, h⟩, hn.symm, _, .construct hb hc, Nat.le_of_eq hn.symm, .inl hn.symm⟩

theorem exists_built (ha : m.Thrifty q P base size) (n : Nat) : ∃ cs, m.Built q n cs := by
  induction n with
  | zero => exact ⟨[], 0, .start, Nat.le_refl 0, .inl rfl⟩
  | succ n ih =>
    obtain ⟨cs, h⟩ := ih
    rcases h.succ ha with h | ⟨c, -, h⟩
    · exact ⟨cs, h⟩
    · exact ⟨cs ++ [c], h⟩

/-- While a construction is under way, the heap is as it was before. -/
theorem Built.balanced (ha : m.Thrifty q P base size) (h : m.Built q n cs) :
    m.Balanced q P base size n cs := by
  obtain ⟨b, hb, hle, hat⟩ := h
  refine (hb.balanced ha).2.of_keepsHeap hle ?_
  rcases hat with rfl | ⟨ws, ⟨k, ls, st, rest, s, hat⟩, hlt⟩
  · exact ⟨rfl, rfl⟩
  · obtain ⟨j, rfl⟩ := Nat.exists_eq_add_of_le hle
    have hquiet := after_allocation m k ls st rest s (show j < (allocation ws).length by omega)
    rw [after_add, hat]
    exact hquiet.store.keepsHeap

theorem Built.complete (ha : m.Allocates q P base size) (h : m.Built q n cs) {c : Construction}
    (hc : c.Completed m q) (hn : c.finish ≤ n) : c ∈ cs := by
  obtain ⟨b, hb, hle, hat⟩ := h
  have hlen := length_allocation c.words
  rw [Construction.finish] at hn
  apply hb.complete ha hc
  rcases hat with rfl | ⟨ws, hat, hlt⟩
  · omega
  · by_contra hge
    by_cases heq : b = c.start
    · have hwords : ws = c.words := hat.unique (heq ▸ hc.atAllocation)
      rw [hwords] at hlt
      omega
    · have hapart := le_of_atAllocation (hb.length_lt ha hat) hat hc.atAllocation (by omega)
      omega

theorem Built.address_eq (ha : m.Thrifty q P base size) (hb : m.Built q n cs) {h : Word}
    (hh : (m.after n q).store.globals.find? Symbol.heapPointer = some h) :
    h.address = base + Construction.total cs * wordSize := by
  obtain ⟨w, hw, haddr⟩ := (hb.balanced ha).heap
  obtain rfl : w = h := Option.some.inj (hw.symm.trans hh)
  exact haddr

theorem Thrifty.heap_le (ha : m.Thrifty q P base size) (j : Nat) {h h' : Word}
    (hh : (m.after n q).store.globals.find? Symbol.heapPointer = some h)
    (hh' : (m.after (n + j) q).store.globals.find? Symbol.heapPointer = some h') :
    h.address ≤ h'.address := by
  induction j generalizing h' with
  | zero =>
    obtain rfl : h = h' := Option.some.inj (hh.symm.trans hh')
    exact Nat.le_refl _
  | succ j ih =>
    obtain ⟨cs, hcs⟩ := exists_built ha (n + j)
    obtain ⟨w, hw, haddr⟩ := (hcs.balanced ha).heap
    refine Nat.le_trans (ih hw) ?_
    rcases hcs.succ ha with hnext | ⟨c, -, hnext⟩
    · exact Nat.le_of_eq (haddr.trans (hnext.address_eq ha hh').symm)
    · rw [haddr, hnext.address_eq ha hh', Construction.total_snoc]
      exact Nat.add_le_add_left (Nat.mul_le_mul_right _ (Nat.le_add_right _ _)) base

theorem heap_mono (ha : m.Allocates q P base size) {n' : Nat} (hle : n ≤ n') {h h' : Word}
    (hh : (m.after n q).store.globals.find? Symbol.heapPointer = some h)
    (hh' : (m.after n' q).store.globals.find? Symbol.heapPointer = some h') :
    h.address ≤ h'.address := by
  obtain ⟨j, rfl⟩ := Nat.exists_eq_add_of_le hle
  exact ha.toThrifty.heap_le j hh hh'

end Machine

end

end TypedScript
