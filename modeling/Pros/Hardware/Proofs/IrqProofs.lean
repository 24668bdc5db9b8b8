import Pros.Hardware.IrqSystem

/-!
# No interrupt stays in service

The writes that the kernel is still to do lead the controllers to where they are ready, whatever devices request in
the meantime (`IrqInv`): the constructor does from anywhere, and `handleInterrupt` does after an acknowledgement, as
it ends the interrupts that this has put in service.
-/

namespace Pros

open PIC

variable {s s' t : IrqSystem} {p p' : Pair} {op : IrqOp} {ops : List IrqOp} {l : Line} {i : Fin 8} {v : U8}
  {todo : List (U16 × U8)}

/-- What writes to the ports make of the controllers. -/
def settle (c : Controls) (todo : List (U16 × U8)) : Controls := todo.foldl (fun c w => c.outb w.1 w.2) c

/-- The constructor sets up both controllers. -/
theorem settle_new (c : Controls) : settle c InterruptManager.new = readyControls := rfl

/-! ## The writes of `handleInterrupt` -/

theorem settle_master (c : Controls) {number : U32} (hn : number < 40) (h : IrqSystem.Handles number todo) :
    settle c todo = { c with master := c.master.endOfInterrupt } := by
  obtain ⟨registers, rfl, rfl⟩ := h
  rw [InterruptManager.handleInterrupt, if_neg (BitVec.not_le.mpr hn), settle, List.foldl_cons, List.foldl_nil,
    Controls.outb, if_pos rfl, Control.command_endOfInterrupt]

theorem settle_both (c : Controls) {number : U32} (hn : 40 ≤ number) (h : IrqSystem.Handles number todo) :
    settle c todo = ⟨c.master.endOfInterrupt, c.slave.endOfInterrupt⟩ := by
  obtain ⟨registers, rfl, rfl⟩ := h
  rw [InterruptManager.handleInterrupt, if_pos hn, settle, List.foldl_cons, List.foldl_cons, List.foldl_nil,
    Controls.outb, Controls.outb, if_pos rfl, if_neg (by decide), if_neg (by decide), if_pos rfl,
    Control.command_endOfInterrupt, Control.command_endOfInterrupt]

theorem settle_ready {number : U32} (h : IrqSystem.Handles number todo) :
    settle readyControls todo = readyControls := by
  by_cases hn : 40 ≤ number
  · rw [settle_both _ hn h, Control.endOfInterrupt_of_isr rfl, Control.endOfInterrupt_of_isr rfl]
  · rw [settle_master _ (BitVec.not_le.mp hn) h, Control.endOfInterrupt_of_isr rfl]

/-! ## Acknowledging -/

theorem toNat_masterVector (i : Fin 8) : (readyControls.master.vector i).toNat = 0x20 + i := by
  revert i
  decide

theorem toNat_slaveVector (i : Fin 8) : (readyControls.slave.vector i).toNat = 0x28 + i := by
  revert i
  decide

theorem cascades_iff (i : Fin 8) : Pair.Cascades readyControls i ↔ i = 2 := by
  revert i
  decide

/-- What the processor is given when the controllers are ready, and what becomes of them. -/
inductive Acknowledged (p : Pair) : U8 → Pair → Prop where
  | nothing (hm : p.masterIrr = ∅) (hs : p.slaveIrr = ∅) : Acknowledged p (readyControls.master.vector 7) p
  | master (i : Fin 8) (h2 : i ≠ 2) (hi : i ∈ p.masterIrr) (hle : ∀ j ∈ p.masterIrr, i ≤ j)
      (hs : p.slaveIrr.Nonempty → i < 2) : Acknowledged p (readyControls.master.vector i)
        ⟨{ readyControls with master := readyControls.master.acknowledge i }, p.masterIrr.erase i, p.slaveIrr⟩
  | noise (h2 : 2 ∈ p.masterIrr) (hle : ∀ j ∈ p.masterIrr, 2 ≤ j) (hs : p.slaveIrr = ∅) :
      Acknowledged p (readyControls.slave.vector 7)
        ⟨{ readyControls with master := readyControls.master.acknowledge 2 }, p.masterIrr.erase 2, p.slaveIrr⟩
  | slave (k : Fin 8) (hk : k ∈ p.slaveIrr) (hlek : ∀ j ∈ p.slaveIrr, k ≤ j) (hle : ∀ j ∈ p.masterIrr, 2 ≤ j) :
      Acknowledged p (readyControls.slave.vector k)
        ⟨⟨readyControls.master.acknowledge 2, readyControls.slave.acknowledge k⟩, p.masterIrr.erase 2,
          p.slaveIrr.erase k⟩

theorem acknowledge_cases (hp : p.controls = readyControls) : Acknowledged p p.acknowledge.1 p.acknowledge.2 := by
  obtain ⟨controls, masterIrr, slaveIrr⟩ := p
  obtain rfl : controls = readyControls := hp
  have hnext : ∀ requests, readyControls.master.next requests = Control.highest requests :=
    Control.next_eq rfl rfl
  have hslave : readyControls.slave.next slaveIrr = Control.highest slaveIrr := Control.next_eq rfl rfl _
  unfold Pair.acknowledge Pair.masterRequests
  simp only [hnext, hslave, cascades_iff]
  cases hk : Control.highest slaveIrr with
  | none =>
    have hempty := Control.highest_eq_none.mp hk
    simp only [Option.isSome_none, Bool.false_eq_true, if_false]
    cases hi : Control.highest masterIrr with
    | none => exact .nothing (Control.highest_eq_none.mp hi) hempty
    | some i =>
      obtain ⟨hmem, hle⟩ := Control.highest_eq_some.mp hi
      by_cases h2 : i = 2
      · subst h2
        simp only [if_true]
        exact .noise hmem hle hempty
      · simp only [if_neg h2]
        exact .master i h2 hmem hle fun hne => absurd hempty hne.ne_empty
  | some k =>
    obtain ⟨hmemk, hlek⟩ := Control.highest_eq_some.mp hk
    simp only [Option.isSome_some, if_true]
    cases hi : Control.highest (insert 2 masterIrr) with
    | none => exact absurd (Control.highest_eq_none.mp hi) (Finset.insert_ne_empty _ _)
    | some i =>
      obtain ⟨hmem, hle⟩ := Control.highest_eq_some.mp hi
      by_cases h2 : i = 2
      · subst h2
        simp only [if_true]
        exact .slave k hmemk hlek fun j hj => hle j (Finset.mem_insert_of_mem hj)
      · have hmem' : i ∈ masterIrr := Finset.mem_of_mem_insert_of_ne hmem h2
        have hlt : i < 2 := lt_of_le_of_ne (hle 2 (Finset.mem_insert_self _ _)) h2
        simp only [if_neg h2]
        exact .master i h2 hmem' (fun j hj => hle j (Finset.mem_insert_of_mem hj)) fun _ => hlt

/-- The writes for the vector that the processor is given end what is in service. -/
theorem Acknowledged.settle (h : Acknowledged p v p') (hp : p.controls = readyControls)
    (hw : IrqSystem.Handles (v.setWidth 32) todo) : Pros.settle p'.controls todo = readyControls := by
  have hnumber : (v.setWidth 32).toNat = v.toNat := by
    rw [BitVec.toNat_setWidth, Nat.mod_eq_of_lt (v.isLt.trans (by decide))]
  have hmaster : ∀ i, (readyControls.master.acknowledge i).endOfInterrupt = readyControls.master :=
    Control.endOfInterrupt_acknowledge rfl (by decide)
  have hslave : ∀ i, (readyControls.slave.acknowledge i).endOfInterrupt = readyControls.slave :=
    Control.endOfInterrupt_acknowledge rfl (by decide)
  cases h with
  | nothing =>
    rw [hp]
    exact settle_ready hw
  | master i =>
    rw [toNat_masterVector] at hnumber
    rw [settle_master _ (BitVec.lt_def.mpr (by rw [hnumber]; simp; omega)) hw]
    simp only [hmaster]
  | noise =>
    rw [toNat_slaveVector] at hnumber
    rw [settle_both _ (BitVec.le_def.mpr (by rw [hnumber]; simp)) hw]
    simp only [hmaster]
    rw [Control.endOfInterrupt_of_isr rfl]
  | slave k =>
    rw [toNat_slaveVector] at hnumber
    rw [settle_both _ (BitVec.le_def.mpr (by rw [hnumber]; simp)) hw]
    simp only [hmaster, hslave]

/-- The vectors that the processor can be given. -/
theorem Acknowledged.toNat_vector (h : Acknowledged p v p') : 0x20 ≤ v.toNat ∧ v.toNat < 0x30 := by
  cases h with
  | nothing => decide
  | master i =>
    rw [toNat_masterVector]
    omega
  | noise => decide
  | slave k =>
    rw [toNat_slaveVector]
    omega

/-! ## Which request is served -/

theorem lineRank_master_of_lt (hi : i < 2) : lineRank (.master i) = i := if_pos hi

theorem lineRank_master_of_le (hi : 2 ≤ i) : lineRank (.master i) = 8 + i := if_neg (not_lt.mpr hi)

theorem lineVector_master (hi : i ≠ 2) : lineVector (.master i) = readyControls.master.vector i := if_neg hi

/-- The priorities of the lines of the master are those of their numbers. -/
theorem lineRank_master_mono {j : Fin 8} (h : i ≤ j) : lineRank (.master i) ≤ lineRank (.master j) := by
  revert i j
  decide

/-- The lines of the slave come behind the first two lines of the master and before the others. -/
theorem lineRank_slave_lt (k : Fin 8) {j : Fin 8} (hj : 2 ≤ j) : lineRank (.slave k) < lineRank (.master j) := by
  rw [lineRank_master_of_le hj]
  have h2 : 2 ≤ (j : ℕ) := hj
  dsimp only [lineRank]
  omega

theorem lineRank_lt_slave (k : Fin 8) (hi : i < 2) : lineRank (.master i) < lineRank (.slave k) := by
  rw [lineRank_master_of_lt hi]
  have h2 : (i : ℕ) < 2 := hi
  dsimp only [lineRank]
  omega

theorem Acknowledged.serves (h : Acknowledged p v p') : Serves p v p' := by
  cases h with
  | nothing hm hs =>
    refine Or.inr ⟨fun l => ?_, by decide, rfl⟩
    cases l with
    | master i => exact fun hi => absurd hm (Finset.ne_empty_of_mem hi)
    | slave i => exact fun hi => absurd hs (Finset.ne_empty_of_mem hi)
  | master i h2 hi hle hs =>
    refine Or.inl ⟨.master i, hi, fun l' hl' => ?_, (lineVector_master h2).symm, Finset.notMem_erase i _,
      fun l' hne _ => ?_⟩
    · cases l' with
      | master j => exact lineRank_master_mono (hle j hl')
      | slave k => exact (lineRank_lt_slave k (hs ⟨k, hl'⟩)).le
    · cases l' with
      | master j => exact (Finset.mem_erase.trans (and_iff_right fun heq => hne (heq ▸ rfl)))
      | slave k => exact Iff.rfl
  | noise h2 hle hs =>
    refine Or.inl ⟨.master 2, h2, fun l' hl' => ?_, by decide, Finset.notMem_erase 2 _, fun l' hne _ => ?_⟩
    · cases l' with
      | master j => exact lineRank_master_mono (hle j hl')
      | slave k => exact absurd hs (Finset.ne_empty_of_mem hl')
    · cases l' with
      | master j => exact (Finset.mem_erase.trans (and_iff_right fun heq => hne (heq ▸ rfl)))
      | slave k => exact Iff.rfl
  | slave k hk hlek hle =>
    refine Or.inl ⟨.slave k, hk, fun l' hl' => ?_, rfl, Finset.notMem_erase k _, fun l' hne hnoise => ?_⟩
    · cases l' with
      | master j => exact (lineRank_slave_lt k (hle j hl')).le
      | slave j => exact Nat.add_le_add_left (hlek j hl') 2
    · cases l' with
      | master j => exact (Finset.mem_erase.trans (and_iff_right fun heq => hnoise (heq ▸ rfl)))
      | slave j => exact (Finset.mem_erase.trans (and_iff_right fun heq => hne (heq ▸ rfl)))

/-! ## Runs -/

/-- The writes that are still to be done make the controllers ready. -/
structure IrqInv (s : IrqSystem) : Prop where
  settles : settle s.pics.controls s.todo = readyControls
  vectors : ∀ v ∈ s.vectors, 0x20 ≤ v.toNat ∧ v.toNat < 0x30

theorem IrqInv.boot (pics : Pair) : IrqInv (.boot pics) where
  settles := settle_new _
  vectors _ hv := absurd hv List.not_mem_nil

theorem IrqInv.ready (h : IrqInv s) (htodo : s.todo = []) : s.pics.controls = readyControls := by
  have hsettles := h.settles
  rwa [htodo] at hsettles

theorem IrqInv.step (h : IrqInv s) (hstep : s.Step op s') : IrqInv s' := by
  cases op with
  | request l =>
    obtain rfl := hstep
    cases l <;> exact ⟨h.settles, h.vectors⟩
  | withdraw l =>
    obtain rfl := hstep
    cases l <;> exact ⟨h.settles, h.vectors⟩
  | write =>
    obtain ⟨w, todo, htodo, rfl⟩ := hstep
    have hsettles := h.settles
    rw [htodo] at hsettles
    exact ⟨hsettles, h.vectors⟩
  | acknowledge =>
    obtain ⟨htodo, todo, hw, rfl⟩ := hstep
    have hack := acknowledge_cases (h.ready htodo)
    refine ⟨hack.settle (h.ready htodo) hw, fun v hv => ?_⟩
    rcases List.mem_cons.mp hv with rfl | hv
    · exact hack.toNat_vector
    · exact h.vectors v hv
  | exception n =>
    obtain ⟨-, htodo, todo, hw, rfl⟩ := hstep
    refine ⟨?_, h.vectors⟩
    rw [h.ready htodo]
    exact settle_ready hw

theorem IrqInv.run {pics : Pair} (hrun : Run IrqSystem.Step (.boot pics) ops s) : IrqInv s :=
  hrun.invariant (.boot pics) fun _ _ _ h hstep => h.step hstep

/-- Whatever devices request and take back in the meantime, and whatever the controllers were before: when the kernel
    takes interrupts, none is in service, and the processor is given the vector of the request of the highest priority,
    which is one of those that there is code for. -/
theorem interrupts_in_service {pics : Pair} (hrun : Run IrqSystem.Step (.boot pics) ops s) : InService s := by
  have h := IrqInv.run hrun
  refine ⟨h.ready, h.vectors, fun s' hstep => ?_⟩
  obtain ⟨htodo, todo, -, rfl⟩ := hstep
  exact ⟨_, rfl, (acknowledge_cases (h.ready htodo)).serves⟩

/-! ## The timer's first interrupt -/

/-- The kernel does the writes that are left. -/
theorem run_writes (pics : Pair) (todo : List (U16 × U8)) (vectors : List U8) :
    Run IrqSystem.Step ⟨pics, todo, vectors⟩ (List.replicate todo.length .write)
      ⟨todo.foldl (fun p w => p.outb w.1 w.2) pics, [], vectors⟩ := by
  induction todo generalizing pics with
  | nil => exact .nil
  | cons w todo ih => exact .cons ⟨w, todo, rfl, rfl⟩ (ih (pics.outb w.1 w.2))

/-- The actions from the constructor to the timer's request. -/
def timerRequest : List IrqOp := List.replicate 10 .write ++ [.request (.master ⟨0, by decide⟩)]

theorem run_timerRequest :
    Run IrqSystem.Step (.boot ⟨readyControls, ∅, ∅⟩) timerRequest ⟨⟨readyControls, {0}, ∅⟩, [], []⟩ := by
  have hpics : InterruptManager.new.foldl (fun p w => p.outb w.1 w.2) (⟨readyControls, ∅, ∅⟩ : Pair) =
      ⟨readyControls, ∅, ∅⟩ := rfl
  have hwrites := run_writes ⟨readyControls, ∅, ∅⟩ InterruptManager.new []
  rw [hpics] at hwrites
  exact .snoc (IrqOp.request (.master 0)) hwrites rfl

theorem exists_handles (number : U32) : ∃ todo, IrqSystem.Handles number todo :=
  ⟨_, { Registers.load { byte := fun _ => 0 } 0 with interrupt := number }, rfl, rfl⟩

/-- The timer's interrupt is taken. -/
theorem step_timer : ∃ s, IrqSystem.Step ⟨⟨readyControls, {0}, ∅⟩, [], []⟩ .acknowledge s ∧ s.vectors = [0x20] := by
  obtain ⟨todo, htodo⟩ := exists_handles ((Pair.acknowledge ⟨readyControls, {0}, ∅⟩).1.setWidth 32)
  have hvector : (Pair.acknowledge ⟨readyControls, {0}, ∅⟩).1 = 0x20 := by decide
  exact ⟨_, ⟨rfl, todo, htodo, rfl⟩, congrArg (· :: []) hvector⟩

/-- The timer's interrupt has been taken. -/
theorem interrupts_in_service_timer : ∃ s, Run IrqSystem.Step (.boot ⟨readyControls, ∅, ∅⟩)
    (timerRequest ++ [.acknowledge]) s ∧ s.vectors = [0x20] ∧ InService s := by
  obtain ⟨s, hstep, hvectors⟩ := step_timer
  have hrun := run_timerRequest.snoc _ hstep
  exact ⟨s, hrun, hvectors, interrupts_in_service hrun⟩

/-! ## Requests are served once -/

theorem pending_request (p : Pair) (l l' : Line) : (p.request l').Pending l ↔ l = l' ∨ p.Pending l := by
  cases l <;> cases l' <;> simp [Pair.Pending, Pair.request]

theorem pending_withdraw (p : Pair) (l l' : Line) : (p.withdraw l').Pending l ↔ l ≠ l' ∧ p.Pending l := by
  cases l <;> cases l' <;> simp [Pair.Pending, Pair.withdraw]

/-- A byte that does not initialise a controller leaves the requests alone. -/
theorem pending_outb {port : U16} {data : U8} (p : Pair) (l : Line) (h : (p.outb port data).Pending l) :
    p.Pending l := by
  cases l with
  | master i =>
    simp only [Pair.Pending, Pair.outb] at h ⊢
    split_ifs at h with hinit
    · exact absurd h (Finset.notMem_empty i)
    · exact h
  | slave i =>
    simp only [Pair.Pending, Pair.outb] at h ⊢
    split_ifs at h with hinit
    · exact absurd h (Finset.notMem_empty i)
    · exact h

theorem pending_outb_of_not {port : U16} {data : U8} (p : Pair) (l : Line) (hdata : data.getLsbD 4 = false) :
    (p.outb port data).Pending l ↔ p.Pending l := by
  cases l <;> simp only [Pair.Pending, Pair.outb, hdata, Bool.false_eq_true, and_false, if_false]

/-- Ordinary lines are told apart by their vectors. -/
theorem lineVector_inj {l l' : Line} (hl : Ordinary l) (h : lineVector l' = lineVector l) : l' = l := by
  unfold Ordinary noiseLine at hl
  revert hl h
  cases l with
  | master i =>
    cases l' with
    | master j =>
      revert i j
      decide
    | slave j =>
      revert i j
      decide
  | slave i =>
    cases l' with
    | master j =>
      revert i j
      decide
    | slave j =>
      revert i j
      decide

theorem lineVector_ne_last {l : Line} (hl : Ordinary l) : lineVector l ≠ 0x27 := by
  unfold Ordinary noiseLine at hl
  revert hl
  cases l with
  | master i =>
    revert i
    decide
  | slave i =>
    revert i
    decide

/-- An acknowledgement serves one line, or none. -/
theorem Serves.tally (h : Serves p v p') (hl : Ordinary l) :
    (if v = lineVector l then 1 else 0) + (if p'.Pending l then 1 else 0) = if p.Pending l then 1 else 0 := by
  rcases h with ⟨l', hl', -, rfl, hgone, hrest⟩ | ⟨hnone, rfl, rfl⟩
  · by_cases heq : l' = l
    · subst heq
      rw [if_pos rfl, if_neg hgone, if_pos hl']
    · rw [if_neg fun hv => heq (lineVector_inj hl hv)]
      simp only [hrest l (Ne.symm heq) hl.1, Nat.zero_add]
  · rw [if_neg (lineVector_ne_last hl).symm, Nat.zero_add]

/-- A step adds to what a line has been served, and is to be, by a request only. -/
theorem IrqInv.tally_step (h : IrqInv s) (hl : Ordinary l) (hstep : s.Step op s') :
    s'.tally l ≤ s.tally l + if op = .request l then 1 else 0 := by
  cases op with
  | request l' =>
    obtain rfl := hstep
    simp only [IrqSystem.tally, pending_request, IrqOp.request.injEq, eq_comm (a := l)]
    split_ifs <;> simp_all
  | withdraw l' =>
    obtain rfl := hstep
    simp only [IrqSystem.tally, pending_withdraw]
    split_ifs <;> simp_all
  | write =>
    obtain ⟨w, todo, -, rfl⟩ := hstep
    have hpending : (s.pics.outb w.1 w.2).Pending l → s.pics.Pending l := pending_outb s.pics l
    simp only [IrqSystem.tally]
    split_ifs <;> simp_all
  | acknowledge =>
    obtain ⟨htodo, todo, -, rfl⟩ := hstep
    have htally := (acknowledge_cases (h.ready htodo)).serves.tally hl
    simp only [IrqSystem.tally, List.count_cons, beq_iff_eq, reduceCtorEq, if_false]
    omega
  | exception n =>
    obtain ⟨-, -, todo, -, rfl⟩ := hstep
    exact Nat.le_add_right _ _

/-- Without a request taken back, and with no initialisation to come, a step takes nothing away from it. -/
theorem IrqInv.tally_step_ge (h : IrqInv s) (hl : Ordinary l) (hboot : s.Booted) (hop : op ≠ .withdraw l)
    (hstep : s.Step op s') : s.tally l ≤ s'.tally l := by
  cases op with
  | request l' =>
    obtain rfl := hstep
    simp only [IrqSystem.tally, pending_request]
    split_ifs <;> simp_all
  | withdraw l' =>
    obtain rfl := hstep
    have hne : l ≠ l' := fun heq => hop (heq ▸ rfl)
    simp only [IrqSystem.tally, pending_withdraw, ne_eq, hne, not_false_eq_true, true_and, le_refl]
  | write =>
    obtain ⟨w, todo, htodo, rfl⟩ := hstep
    have hw : w.2.getLsbD 4 = false := hboot w (htodo ▸ List.mem_cons_self)
    simp only [IrqSystem.tally, pending_outb_of_not s.pics l hw, le_refl]
  | acknowledge =>
    obtain ⟨htodo, todo, -, rfl⟩ := hstep
    have htally := (acknowledge_cases (h.ready htodo)).serves.tally hl
    simp only [IrqSystem.tally, List.count_cons, beq_iff_eq]
    omega
  | exception n =>
    obtain ⟨-, -, todo, -, rfl⟩ := hstep
    exact le_rfl

theorem Handles.noInit {number : U32} (h : IrqSystem.Handles number todo) : ∀ w ∈ todo, w.2.getLsbD 4 = false := by
  obtain ⟨registers, -, rfl⟩ := h
  intro w hw
  rcases List.mem_cons.mp hw with rfl | hw
  · decide
  · split_ifs at hw
    · obtain rfl := List.mem_singleton.mp hw
      decide
    · exact absurd hw List.not_mem_nil

theorem IrqSystem.Booted.step (h : s.Booted) (hstep : s.Step op s') : s'.Booted := by
  cases op with
  | request l =>
    obtain rfl := hstep
    exact h
  | withdraw l =>
    obtain rfl := hstep
    exact h
  | write =>
    obtain ⟨w, todo, htodo, rfl⟩ := hstep
    exact fun w' hw' => h w' (htodo ▸ List.mem_cons_of_mem _ hw')
  | acknowledge =>
    obtain ⟨-, todo, hw, rfl⟩ := hstep
    exact Handles.noInit hw
  | exception n =>
    obtain ⟨-, -, todo, hw, rfl⟩ := hstep
    exact Handles.noInit hw

/-- A line is not served more often than there were requests for it. -/
theorem IrqInv.tally_run (h : IrqInv s) (hl : Ordinary l) (hrun : Run IrqSystem.Step s ops t) :
    IrqInv t ∧ t.tally l ≤ s.tally l + ops.count (.request l) := by
  induction hrun with
  | nil => exact ⟨h, le_rfl⟩
  | snoc op hrun hstep ih =>
    refine ⟨ih.1.step hstep, ?_⟩
    have hle := ih.1.tally_step hl hstep
    simp only [List.count_append, List.count_singleton, beq_iff_eq]
    omega

/-- What was to be served still is, or has been served. -/
theorem IrqInv.tally_run_ge (h : IrqInv s) (hl : Ordinary l) (hboot : s.Booted) (hops : .withdraw l ∉ ops)
    (hrun : Run IrqSystem.Step s ops t) : IrqInv t ∧ t.Booted ∧ s.tally l ≤ t.tally l := by
  induction hrun with
  | nil => exact ⟨h, hboot, le_rfl⟩
  | snoc op hrun hstep ih =>
    obtain ⟨hu, hub, hle⟩ := ih fun hmem => hops (List.mem_append_left _ hmem)
    have hge := hu.tally_step_ge hl hub (fun heq => hops (heq ▸ List.mem_append_right _ List.mem_cons_self)) hstep
    exact ⟨hu.step hstep, hub.step hstep, hle.trans hge⟩

/-- Vectors are only added. -/
theorem vectors_run (hrun : Run IrqSystem.Step s ops t) : s.vectors <:+ t.vectors := by
  refine hrun.invariant (I := fun u => s.vectors <:+ u.vectors) (List.suffix_refl _) fun u op u' hu hstep => ?_
  cases op with
  | request l =>
    obtain rfl := hstep
    exact hu
  | withdraw l =>
    obtain rfl := hstep
    exact hu
  | write =>
    obtain ⟨w, todo, -, rfl⟩ := hstep
    exact hu
  | acknowledge =>
    obtain ⟨-, todo, -, rfl⟩ := hstep
    exact hu.trans (List.suffix_cons _ _)
  | exception n =>
    obtain ⟨-, -, todo, -, rfl⟩ := hstep
    exact hu

/-- A request is not lost: it is still there, or its line has been served since. -/
theorem IrqInv.kept (h : IrqInv s) (hl : Ordinary l) (hboot : s.Booted) (hops : .withdraw l ∉ ops)
    (hrun : Run IrqSystem.Step s ops t) (hreq : s.pics.Pending l ∨ .request l ∈ ops) :
    t.pics.Pending l ∨ s.vectors.count (lineVector l) < t.vectors.count (lineVector l) := by
  -- Behind the request the line is pending.
  obtain ⟨u, vs, huv, hu, hub, hpending, hlate⟩ : ∃ (u : IrqSystem) (post : List IrqOp), Run IrqSystem.Step u post t ∧
      IrqInv u ∧ u.Booted ∧ u.pics.Pending l ∧
        (.withdraw l ∉ post ∧ s.vectors.count (lineVector l) ≤ u.vectors.count (lineVector l)) := by
    rcases hreq with hpending | hmem
    · exact ⟨s, ops, hrun, h, hboot, hpending, hops, le_rfl⟩
    · obtain ⟨pre, post, rfl⟩ := List.append_of_mem hmem
      rw [← List.singleton_append, ← List.append_assoc, Run.append_iff] at hrun
      obtain ⟨u, hsu, hut⟩ := hrun
      have hpre : .withdraw l ∉ pre ++ [IrqOp.request l] := fun hm => hops (by simp_all)
      obtain ⟨hu, hub, -⟩ := h.tally_run_ge hl hboot hpre hsu
      refine ⟨u, post, hut, hu, hub, ?_, fun hm => hops (by simp_all), (vectors_run hsu).count_le _⟩
      obtain ⟨w, -, rfl⟩ := Run.snoc_iff.mp hsu
      exact (pending_request w.pics l l).mpr (Or.inl rfl)
  obtain ⟨-, -, hle⟩ := hu.tally_run_ge hl hub hlate.1 huv
  simp only [IrqSystem.tally, if_pos hpending] at hle
  by_cases ht : t.pics.Pending l
  · exact Or.inl ht
  · rw [if_neg ht] at hle
    exact Or.inr (by omega)

/-- For every ordinary line and over every run, what the line has been served and is to be grows by no more than one
    for each request. While no request of it is taken back it does not shrink, and no request is lost. -/
theorem requests_served {pics : Pair} {early : List IrqOp} (hearly : Run IrqSystem.Step (.boot pics) early s)
    (hrun : Run IrqSystem.Step s ops t) (hl : Ordinary l) :
    t.tally l ≤ s.tally l + ops.count (.request l) ∧
      (s.Booted → .withdraw l ∉ ops → s.tally l ≤ t.tally l ∧
        (s.pics.Pending l ∨ .request l ∈ ops →
          t.pics.Pending l ∨ s.vectors.count (lineVector l) < t.vectors.count (lineVector l))) := by
  have h := IrqInv.run hearly
  refine ⟨(h.tally_run hl hrun).2, fun hboot hops => ?_⟩
  exact ⟨(h.tally_run_ge hl hboot hops hrun).2.2, h.kept hl hboot hops hrun⟩

/-- The timer's request is served. -/
theorem requests_served_timer : ∃ s t, Run IrqSystem.Step (.boot ⟨readyControls, ∅, ∅⟩) timerRequest s ∧ s.Booted ∧
    s.pics.Pending (.master 0) ∧ Run IrqSystem.Step s [.acknowledge] t ∧ t.vectors = [0x20] ∧
      t.tally (.master 0) ≤ s.tally (.master 0) + [IrqOp.acknowledge].count (.request (.master 0)) ∧
      (s.Booted → .withdraw (.master 0) ∉ [IrqOp.acknowledge] → s.tally (.master 0) ≤ t.tally (.master 0) ∧
        (s.pics.Pending (.master 0) ∨ .request (.master 0) ∈ [IrqOp.acknowledge] →
          t.pics.Pending (.master 0) ∨
            s.vectors.count (lineVector (.master 0)) < t.vectors.count (lineVector (.master 0)))) := by
  obtain ⟨t, hstep, hvectors⟩ := step_timer
  have hrun : Run IrqSystem.Step ⟨⟨readyControls, {0}, ∅⟩, [], []⟩ [.acknowledge] t := .snoc _ .nil hstep
  exact ⟨_, t, run_timerRequest, fun w hw => absurd hw List.not_mem_nil, Finset.mem_singleton_self 0, hrun, hvectors,
    requests_served run_timerRequest hrun ⟨by decide, by decide, by decide⟩⟩

/-! ## Every request can be served -/

/-- What is pending, in number. -/
def pendingCount (p : Pair) : ℕ := p.masterIrr.card + p.slaveIrr.card

theorem pendingCount_outb (p : Pair) (port : U16) (data : U8) : pendingCount (p.outb port data) ≤ pendingCount p := by
  unfold pendingCount Pair.outb
  have hmaster : (if port = 0x20 ∧ data.getLsbD 4 = true then ∅ else p.masterIrr).card ≤ p.masterIrr.card := by
    split_ifs <;> simp
  have hslave : (if port = 0xA0 ∧ data.getLsbD 4 = true then ∅ else p.slaveIrr).card ≤ p.slaveIrr.card := by
    split_ifs <;> simp
  exact Nat.add_le_add hmaster hslave

theorem Acknowledged.pendingCount_lt (h : Acknowledged p v p') (hp : 0 < pendingCount p) :
    pendingCount p' < pendingCount p := by
  unfold pendingCount at *
  cases h with
  | nothing hm hs =>
    rw [hm, hs] at hp
    exact absurd hp (by decide)
  | master i h2 hi =>
    have := Finset.card_erase_lt_of_mem hi
    simp only
    omega
  | noise h2 =>
    have := Finset.card_erase_lt_of_mem h2
    simp only
    omega
  | slave k hk =>
    have hslave := Finset.card_erase_lt_of_mem hk
    have hmaster := Finset.card_le_card (Finset.erase_subset 2 p.masterIrr)
    simp only
    omega

/-- Neither devices nor exceptions. -/
def Quiet (ops : List IrqOp) : Prop := ∀ op ∈ ops, op = .write ∨ op = .acknowledge

theorem pendingCount_writes (todo : List (U16 × U8)) (p : Pair) :
    pendingCount (todo.foldl (fun p w => p.outb w.1 w.2) p) ≤ pendingCount p := by
  induction todo generalizing p with
  | nil => exact le_rfl
  | cons w todo ih => exact (ih _).trans (pendingCount_outb p w.1 w.2)

theorem exists_flush (s : IrqSystem) : ∃ ops t, Quiet ops ∧ Run IrqSystem.Step s ops t ∧ t.todo = [] ∧
    pendingCount t.pics ≤ pendingCount s.pics :=
  ⟨_, _, fun _ hop => Or.inl (List.eq_of_mem_replicate hop), run_writes s.pics s.todo s.vectors, rfl,
    pendingCount_writes s.todo s.pics⟩

theorem IrqInv.exists_drain (h : IrqInv s) : ∃ ops t, Quiet ops ∧ Run IrqSystem.Step s ops t ∧ t.todo = [] ∧
    pendingCount t.pics = 0 := by
  induction hn : pendingCount s.pics using Nat.strong_induction_on generalizing s with
  | _ n ih =>
    obtain ⟨flush, u, hquiet, hflush, htodo, hle⟩ := exists_flush s
    have hu : IrqInv u := hflush.invariant h fun _ _ _ hv hstep => hv.step hstep
    rcases Nat.eq_zero_or_pos (pendingCount u.pics) with hzero | hpos
    · exact ⟨flush, u, hquiet, hflush, htodo, hzero⟩
    · -- One more request is served.
      obtain ⟨todo, hw⟩ := exists_handles (u.pics.acknowledge.1.setWidth 32)
      have hstep : u.Step .acknowledge ⟨u.pics.acknowledge.2, todo, u.pics.acknowledge.1 :: u.vectors⟩ :=
        ⟨htodo, todo, hw, rfl⟩
      have hlt := (acknowledge_cases (hu.ready htodo)).pendingCount_lt hpos
      obtain ⟨ops, t, hquiet', hrun, ht, hnone⟩ := ih (pendingCount u.pics.acknowledge.2) (by omega) (hu.step hstep) rfl
      refine ⟨flush ++ ([.acknowledge] ++ ops), t, ?_, ?_, ht, hnone⟩
      · intro op hop
        simp only [List.mem_append, List.mem_singleton] at hop
        rcases hop with hop | rfl | hop
        · exact hquiet op hop
        · exact Or.inr rfl
        · exact hquiet' op hop
      · exact Run.append_iff.mpr ⟨u, hflush, Run.append_iff.mpr ⟨_, .snoc IrqOp.acknowledge .nil hstep, hrun⟩⟩

/-- From every state that is reached, the kernel gets to one in which nothing is pending and it takes interrupts, with
    no more than its writes and acknowledgements; and on the way it has served each ordinary line that had a request. -/
theorem interrupts_drain {pics : Pair} (hearly : Run IrqSystem.Step (.boot pics) ops s) :
    ∃ drain t, Quiet drain ∧ Run IrqSystem.Step s drain t ∧ t.todo = [] ∧ (∀ l, ¬ t.pics.Pending l) ∧
      (s.Booted → ∀ l, Ordinary l → s.pics.Pending l →
        s.vectors.count (lineVector l) < t.vectors.count (lineVector l)) := by
  have h := IrqInv.run hearly
  obtain ⟨drain, t, hquiet, hrun, htodo, hzero⟩ := h.exists_drain
  have hnone : ∀ l, ¬ t.pics.Pending l := by
    obtain ⟨hm, hs⟩ := Nat.add_eq_zero_iff.mp hzero
    rw [Finset.card_eq_zero] at hm hs
    intro l
    cases l with
    | master i => exact fun hi => absurd hm (Finset.ne_empty_of_mem hi)
    | slave i => exact fun hi => absurd hs (Finset.ne_empty_of_mem hi)
  refine ⟨drain, t, hquiet, hrun, htodo, hnone, fun hboot l hl hpending => ?_⟩
  have hops : .withdraw l ∉ drain := fun hm => by
    rcases hquiet _ hm with heq | heq <;> cases heq
  exact (h.kept hl hboot hops hrun (Or.inl hpending)).resolve_left (hnone l)

/-- From the timer's request on. -/
theorem interrupts_drain_boot : ∃ s, Run IrqSystem.Step (.boot ⟨readyControls, ∅, ∅⟩) timerRequest s ∧ s.Booted ∧
    s.pics.Pending (.master 0) ∧
    ∃ drain t, Quiet drain ∧ Run IrqSystem.Step s drain t ∧ t.todo = [] ∧ (∀ l, ¬ t.pics.Pending l) ∧
      (s.Booted → ∀ l, Ordinary l → s.pics.Pending l →
        s.vectors.count (lineVector l) < t.vectors.count (lineVector l)) :=
  ⟨_, run_timerRequest, fun _ hw => absurd hw List.not_mem_nil, Finset.mem_singleton_self 0,
    interrupts_drain run_timerRequest⟩

end Pros
