import Mathlib.Data.Set.Basic
import Pros.Foundations.Memory
import Pros.Foundations.Run

/-!
# Paging

A processor with paging looks up the place of an address in a translation that it reads from the memory itself:
`τ p a` is the place of `a` while the memory is `p`. A program that stores only where the places are its own runs
behind the translation as it does on flat memory (`Own.storeAll`).

The processor also caches translations. The cache is good in every order of edits and accesses exactly if no edit
changes a translation that is there (`fresh_iff`).
-/

namespace Memory

variable {α : Type} [DecidableEq α] {m m' m'' : Memory α}

/-- Stores, the first one first. -/
def storeAll (m : Memory α) (stores : List (α × BitVec 8)) : Memory α :=
  stores.foldl (fun m s => m.store8 s.1 s.2) m

@[simp] theorem storeAll_nil (m : Memory α) : m.storeAll [] = m := rfl

@[simp] theorem storeAll_cons (m : Memory α) (s : α × BitVec 8) (stores : List (α × BitVec 8)) :
    m.storeAll (s :: stores) = (m.store8 s.1 s.2).storeAll stores := rfl

theorem storeAll_append (m : Memory α) (stores stores' : List (α × BitVec 8)) :
    m.storeAll (stores ++ stores') = (m.storeAll stores).storeAll stores' := List.foldl_append

theorem written_storeAll (m : Memory α) (stores : List (α × BitVec 8)) :
    (m.storeAll stores).written = (stores.map Prod.fst).reverse ++ m.written := by
  induction stores generalizing m with
  | nil => rfl
  | cons s stores ih => rw [storeAll_cons, ih, written_store8, List.map_cons, List.reverse_cons, List.append_assoc,
      List.singleton_append]

theorem byte_storeAll_of_notMem {stores : List (α × BitVec 8)} {x : α} (h : x ∉ stores.map Prod.fst) :
    (m.storeAll stores).byte x = m.byte x := by
  induction stores generalizing m with
  | nil => rfl
  | cons s stores ih =>
    rw [List.map_cons, List.mem_cons, not_or] at h
    rw [storeAll_cons, ih h.2, byte_store8_of_ne h.1]

/-- The memory became the other one by stores. -/
def StoresTo (m m' : Memory α) : Prop := ∃ stores, m' = m.storeAll stores

theorem StoresTo.refl (m : Memory α) : m.StoresTo m := ⟨[], rfl⟩

theorem StoresTo.trans (h : m.StoresTo m') (h' : m'.StoresTo m'') : m.StoresTo m'' := by
  obtain ⟨stores, rfl⟩ := h
  obtain ⟨stores', rfl⟩ := h'
  exact ⟨stores ++ stores', (storeAll_append ..).symm⟩

theorem StoresTo.store8 (h : m.StoresTo m') (a : α) (v : BitVec 8) : m.StoresTo (m'.store8 a v) :=
  h.trans ⟨[(a, v)], rfl⟩

theorem StoresTo.store32 [Add α] [NatCast α] (h : m.StoresTo m') (a : α) (v : BitVec 32) :
    m.StoresTo (m'.store32 a v) :=
  (((h.store8 _ _).store8 _ _).store8 _ _).store8 _ _

end Memory

namespace Paging

/-! ## Behind a translation -/

section Translation

variable {V P : Type} [DecidableEq V] [DecidableEq P] (τ : Memory P → V → Option P)

/-- The byte behind an address, if there is one. -/
def load (p : Memory P) (a : V) : Option (BitVec 8) := (τ p a).map p.byte

def store (p : Memory P) (a : V) (v : BitVec 8) : Option (Memory P) := (τ p a).map fun x => p.store8 x v

/-- Stores through the translation, the first one first. It is looked up for each of them. -/
def storeAll (p : Memory P) (stores : List (V × BitVec 8)) : Option (Memory P) :=
  stores.foldlM (fun p s => store τ p s.1 s.2) p

/-- The places of a set of addresses. -/
def places (p : Memory P) (A : Set V) : Set P := { x | ∃ a ∈ A, τ p a = some x }

/-- Every address of `A` has a place of its own, and the translation does not read there. -/
structure Own (p : Memory P) (A : Set V) : Prop where
  mapped : ∀ a ∈ A, ∃ x, τ p a = some x
  inj : ∀ a ∈ A, ∀ b ∈ A, τ p a = τ p b → a = b
  unread : ∀ p' : Memory P, (∀ x ∉ places τ p A, p'.byte x = p.byte x) → τ p' = τ p

variable {τ} {p p' : Memory P} {v : Memory V} {A : Set V}

omit [DecidableEq V] [DecidableEq P] in
/-- Storing to the places of `A` moves nothing. -/
theorem Own.of_agree (h : Own τ p A) (hp' : ∀ x ∉ places τ p A, p'.byte x = p.byte x) :
    Own τ p' A ∧ τ p' = τ p := by
  have hτ := h.unread p' hp'
  have hplaces : places τ p' A = places τ p A := by rw [places, places, hτ]
  refine ⟨⟨by rw [hτ]; exact h.mapped, by rw [hτ]; exact h.inj, fun p'' hp'' => ?_⟩, hτ⟩
  rw [hplaces] at hp''
  rw [hτ]
  exact h.unread p'' fun x hx => (hp'' x hx).trans (hp' x hx)

/-- What is behind the addresses of `A` is what a flat memory has there. -/
def Shows (τ : Memory P → V → Option P) (p : Memory P) (A : Set V) (v : Memory V) : Prop :=
  ∀ a ∈ A, load τ p a = some (v.byte a)

theorem Own.store (h : Own τ p A) (hv : Shows τ p A v) {a : V} (ha : a ∈ A) (b : BitVec 8) :
    ∃ p', store τ p a b = some p' ∧ (∀ x ∉ places τ p A, p'.byte x = p.byte x) ∧
      Shows τ p' A (v.store8 a b) := by
  obtain ⟨x, hx⟩ := h.mapped a ha
  have hoff : ∀ y ∉ places τ p A, (p.store8 x b).byte y = p.byte y := by
    intro y hy
    refine Memory.byte_store8_of_ne ?_
    rintro rfl
    exact hy ⟨a, ha, hx⟩
  refine ⟨p.store8 x b, by rw [Paging.store, hx, Option.map_some], hoff, fun c hc => ?_⟩
  obtain ⟨y, hy⟩ := h.mapped c hc
  have hload := hv c hc
  rw [load, hy, Option.map_some, Option.some.injEq] at hload
  rw [load, (h.of_agree hoff).2, hy, Option.map_some, Memory.byte_store8, Memory.byte_store8, hload]
  by_cases hca : c = a
  · subst hca
    obtain rfl := Option.some.inj (hx.symm.trans hy)
    rw [if_pos rfl, if_pos rfl]
  · have hyx : y ≠ x := by
      rintro rfl
      exact hca (h.inj c hc a ha (hy.trans hx.symm))
    rw [if_neg hca, if_neg hyx]

/-- Stores to addresses of `A` do behind the translation what they do on flat memory. -/
theorem Own.storeAll (h : Own τ p A) (hv : Shows τ p A v) {stores : List (V × BitVec 8)}
    (hstores : ∀ s ∈ stores, s.1 ∈ A) :
    ∃ p', storeAll τ p stores = some p' ∧ (∀ x ∉ places τ p A, p'.byte x = p.byte x) ∧
      Shows τ p' A (v.storeAll stores) := by
  induction stores generalizing p v with
  | nil => exact ⟨p, rfl, fun _ _ => rfl, hv⟩
  | cons s stores ih =>
    rw [List.forall_mem_cons] at hstores
    obtain ⟨p₁, h₁, hoff₁, hv₁⟩ := h.store hv hstores.1 s.2
    obtain ⟨hown, hτ⟩ := h.of_agree hoff₁
    obtain ⟨p₂, h₂, hoff₂, hv₂⟩ := ih hown hv₁ hstores.2
    have hplaces : places τ p₁ A = places τ p A := by rw [places, places, hτ]
    rw [hplaces] at hoff₂
    refine ⟨p₂, ?_, fun x hx => (hoff₂ x hx).trans (hoff₁ x hx), hv₂⟩
    rw [Paging.storeAll, List.foldlM_cons, h₁]
    exact h₂

end Translation

/-! ## Cached translations -/

section Cache

variable {σ Op V F : Type} [DecidableEq V]

/-- A processor with the translations that it has cached. -/
structure Cpu (σ V F : Type) where
  state : σ
  tlb : V → Option F

/-- An operation of the program, an access, which caches a translation, or the loss of a cached one. -/
inductive Event (Op V : Type) where
  | op (o : Op)
  | access (a : V)
  | drop (a : V)

variable (exec : σ → Op → σ) (walk : σ → V → Option F)

namespace Cpu

/-- The translation that the processor uses. -/
def translate (c : Cpu σ V F) (a : V) : Option F := (c.tlb a).or (walk c.state a)

def step (c : Cpu σ V F) : Event Op V → Cpu σ V F
  | .op o => { c with state := exec c.state o }
  | .access a => { c with tlb := Function.update c.tlb a (c.translate walk a) }
  | .drop a => { c with tlb := Function.update c.tlb a none }

/-- Nothing is cached, as after `cr3` has been loaded. -/
def flushed (s : σ) : Cpu σ V F := ⟨s, fun _ => none⟩

def run (c : Cpu σ V F) (events : List (Event Op V)) : Cpu σ V F := events.foldl (step exec walk) c

/-- The processor uses the translations that it would look up. -/
def Fresh (c : Cpu σ V F) : Prop := ∀ a, c.translate walk a = walk c.state a

end Cpu

/-- The operations among events. -/
def ops (events : List (Event Op V)) : List Op :=
  events.filterMap fun
    | .op o => some o
    | _ => none

variable {exec walk} {s : σ} {c : Cpu σ V F}

omit [DecidableEq V] in
theorem Cpu.fresh_iff_tlb : c.Fresh walk ↔ ∀ a f, c.tlb a = some f → walk c.state a = some f := by
  constructor
  · intro h a f hf
    rw [← h a, translate, hf, Option.some_or]
  · intro h a
    rw [translate]
    cases hf : c.tlb a with
    | none => rw [Option.none_or]
    | some f => rw [Option.some_or, h a f hf]

omit [DecidableEq V] in
theorem ops_append (xs ys : List (Event Op V)) : ops (xs ++ ys) = ops xs ++ ops ys := List.filterMap_append

theorem state_run (events : List (Event Op V)) :
    (c.run exec walk events).state = (ops events).foldl exec c.state := by
  induction events using List.reverseRecOn with
  | nil => rfl
  | append_singleton events e ih =>
    rw [Cpu.run, List.foldl_append, ops_append, List.foldl_append, ← ih]
    cases e <;> rfl

/-- An access or a loss keeps the cache good. -/
theorem Cpu.Fresh.update (h : c.Fresh walk) {a : V} {t : Option F} (ht : t = none ∨ t = walk c.state a) :
    (Cpu.mk c.state (Function.update c.tlb a t)).Fresh walk := by
  rw [fresh_iff_tlb] at h ⊢
  intro b f (hf : Function.update c.tlb a t b = some f)
  by_cases hb : b = a
  · subst hb
    rw [Function.update_self] at hf
    rcases ht with rfl | rfl
    · cases hf
    · exact hf
  · rw [Function.update_of_ne hb] at hf
    exact h b f hf

/-- Whatever the order of accesses and operations, the processor uses no old translation, exactly if each of the
    operations keeps the translations that are there. -/
theorem fresh_iff (os : List Op) :
    (∀ events : List (Event Op V), ops events <+: os → ((Cpu.flushed s).run exec walk events).Fresh walk) ↔
      ∀ pre o, pre ++ [o] <+: os →
        ∀ a f, walk (pre.foldl exec s) a = some f → walk (exec (pre.foldl exec s) o) a = some f := by
  constructor
  · intro h pre o hpre a f hf
    -- The address is accessed right before the operation.
    have hevents : ops (pre.map Event.op ++ [.access a, .op o]) = pre ++ [o] := by
      rw [ops_append, ops, List.filterMap_map]
      exact congrArg (· ++ [o]) (List.filterMap_some)
    have hpre' : ops (pre.map (Event.op (V := V))) = pre := by
      rw [ops, List.filterMap_map]
      exact List.filterMap_some
    have hstate : ((Cpu.flushed s).run exec walk (pre.map Event.op)).state = pre.foldl exec s := by
      rw [state_run, hpre']
      rfl
    have hbefore := h (pre.map Event.op) (hpre'.symm ▸ (List.prefix_append pre [o]).trans hpre) a
    have hafter := Cpu.fresh_iff_tlb.mp (h _ (hevents.symm ▸ hpre)) a f
    rw [Cpu.run, List.foldl_append] at hafter
    rw [← hstate] at hf ⊢
    refine hafter ?_
    exact (Function.update_self ..).trans (hbefore.trans hf)
  · intro h events
    induction events using List.reverseRecOn with
    | nil => exact fun _ => Cpu.fresh_iff_tlb.mpr fun _ _ hf => nomatch hf
    | append_singleton events e ih =>
      intro hos
      rw [ops_append] at hos
      have hfresh := ih ((List.prefix_append ..).trans hos)
      rw [Cpu.run, List.foldl_append]
      change Cpu.Fresh walk (Cpu.step exec walk ((Cpu.flushed s).run exec walk events) e)
      cases e with
      | access a => exact hfresh.update (Or.inr (hfresh a))
      | drop a => exact hfresh.update (Or.inl rfl)
      | op o =>
        rw [Cpu.fresh_iff_tlb] at hfresh ⊢
        intro a f hf
        have hkeep := h (ops events) o hos a f
        have hstate : ((Cpu.flushed s).run exec walk events).state = (ops events).foldl exec s := state_run events
        rw [← hstate] at hkeep
        exact hkeep (hfresh a f hf)

end Cache

end Paging
