import CipherMachine.Proofs.Cost.Cycle
import CipherMachine.Proofs.Machine.Shape

set_option autoImplicit false

/-!
The exact gate cost of a run.

Loading evaluates no gate and every cycle evaluates the same gates, so the counters of gates tell
the number of cycles. Neither the contents of memory nor the noise budget, and with it the number of
refreshes, has any part in that.
-/

namespace CipherMachine

open GateM

variable {C S : Type}

section

variable {M : Type} [AddCommMonoid M] (tally : GateStats → M)

theorem Gates.encrypt_spends (G : Gates C S) (bit : Bool) :
    Spends tally (G.encrypt bit) 0 fun _ => True :=
  ((Spends.call _).bind fun _ _ => .pure trivial).as 0 (add_zero 0)

theorem Gates.encryptWord_spends (G : Gates C S) (value width : Nat) :
    Spends tally (G.encryptWord value width) 0 fun _ => True := by
  apply Spends.guarded
  intro _
  have chain := (Spends.loop (List.range width) fun i _ =>
      G.encrypt_spends tally (value.testBit i)).bind fun bits _ =>
    Spends.pure (a := (⟨bits⟩ : Word C)) (P := fun _ => True) trivial
  apply chain.as
  rw [nsmul_zero, add_zero]

theorem Machine.initial_spends (G : Gates C S) (g : Geometry) (image : EncryptedImage C) :
    Spends tally (initial G g image) 0 fun _ => True := by
  have chain := (Spends.loop (List.replicate (g.capacity - image.memory.length) 0) fun word _ =>
      G.encryptWord_spends tally word 16).bind fun padding _ =>
    (G.encrypt_spends tally false).bind fun carry _ =>
    (G.encrypt_spends tally false).bind fun zero _ =>
    (G.encrypt_spends tally false).bind fun minus _ =>
    (G.encryptWord_spends tally 0 16).bind fun staging _ =>
    (G.encrypt_spends tally true).bind fun one _ =>
    Spends.pure (a := ((⟨g, image.memory ++ padding⟩ : Memory C),
      (⟨image.pc, image.ac, carry, zero, minus, staging⟩ : EncryptedRegisters C), one))
      (P := fun _ => True) trivial
  apply chain.as
  simp only [nsmul_zero, add_zero]

end

namespace Machine

variable {scheme : Scheme C S} {G : Gates C S} {config : MachineConfig}
  {image : EncryptedImage C} {state : S} {m : Machine C S}

/-- A machine that was loaded has the gates of its scheme. -/
theorem accepted_of_load (loaded : load scheme config image state = .ok m) :
    ∃ G, Gates.ofScheme scheme = .ok G := by
  unfold load at loaded
  cases check : image.check config.geometry with
  | error error =>
      rw [check] at loaded
      cases loaded
  | ok _ =>
      rw [check] at loaded
      cases accepted : Gates.ofScheme scheme with
      | error fault =>
          rw [accepted] at loaded
          cases loaded
      | ok G => exact ⟨G, rfl⟩

theorem load_stats (G : Gates C S) (config : MachineConfig) (image : EncryptedImage C)
    (state : S) :
    Outcome (fun _ => True) (fun m => m.stats = {} ∧ m.cycles = 0)
      (load G.scheme config image state) := by
  have spent := initial_spends GateStats.counters G config.geometry image ⟨state, {}⟩
  have initialized := spent.mapError (f := LoadError.fault) (D := fun _ => True) fun _ _ => trivial
  unfold load
  refine (Outcome.any fun _ => trivial).bind fun _ _ => ?_
  rw [Gates.ofScheme_scheme]
  exact initialized.bind fun (memory, registers, one) answer =>
    ⟨GateStats.counters_inj (answer.2.trans (add_zero _)), rfl⟩

theorem load_spends (G : Gates C S) (config : MachineConfig) (image : EncryptedImage C)
    (state : S) :
    Outcome (fun _ => True) (fun m => m.stats.gates = 0 ∧ m.cycles = 0)
      (load G.scheme config image state) := by
  apply (load_stats G config image state).mono
  rintro m ⟨fresh, start⟩
  rw [fresh]
  exact ⟨rfl, start⟩

theorem InShape.sized (shape : m.InShape) :
    m.memory.Sized m.config.geometry 16 ∧ m.registers.Sized m.config.geometry :=
  ⟨⟨shape.geometry, shape.size, shape.cells⟩, ⟨shape.pc, shape.ac, shape.staging⟩⟩

theorem InShape.step_spends (shape : m.InShape) :
    Outcome (fun _ => True) (fun result => result.1.cycles = m.cycles + 1 ∧
      result.1.stats.gates = m.stats.gates + Cycle.gates m.config.geometry) m.step := by
  obtain ⟨hm, hr⟩ := shape.sized
  have spends : Spends GateStats.gates m.cycle (Cycle.gates m.config.geometry) fun _ => True :=
    ((Cycle.run_spends m.gates m.registers m.config.enumerates_schedule hm hr m.one).metered).mono
      fun _ _ => trivial
  have spent := spends m.session
  cases stepped : m.step with
  | error fault => trivial
  | ok result =>
      obtain ⟨next, events⟩ := result
      obtain ⟨_, _, _, _, _, _, ran, rfl, _⟩ := step_eq_ok stepped
      rw [ran] at spent
      exact ⟨rfl, spent.2⟩

structure Counted (G : Gates C S) (config : MachineConfig) (m : Machine C S) : Prop where
  intact : m.Intact G config
  gates : m.stats.gates = m.cycles • Cycle.gates config.geometry

theorem Counted.step (counted : m.Counted G config) :
    Outcome (Exhausted (∃ state, G.scheme.Dry state))
      (fun result => result.1.Counted G config ∧ result.1.cycles = m.cycles + 1) m.step := by
  have spent := counted.intact.shape.step_spends
  rw [counted.intact.config, counted.gates] at spent
  apply (counted.intact.step.and spent).mono
  rintro ⟨next, _⟩ ⟨intact, cycles, gates⟩
  refine ⟨⟨intact, ?_⟩, cycles⟩
  rw [gates, cycles, succ_nsmul]

/-- The induction is on the cycles: each of them adds the gates of one. -/
theorem Counted.steps (n : Nat) (counted : m.Counted G config) :
    Outcome (Exhausted (∃ state, G.scheme.Dry state))
      (fun final => final.Counted G config ∧ final.cycles = m.cycles + n) (m.steps n) := by
  induction n generalizing m with
  | zero => exact ⟨counted, rfl⟩
  | succ n ih =>
      refine counted.step.bind fun (next, _) ⟨counted, cycles⟩ => ?_
      apply (ih counted).mono
      intro final ⟨counted, total⟩
      exact ⟨counted, by omega⟩

/-- After `n` cycles the counters of gates are `n` times those of one cycle, whatever the image and
the noise budget, and however many ciphertexts were refreshed. -/
theorem run_gates (loaded : load scheme config image state = .ok m) (n : Nat) :
    let N := config.geometry.capacity
    let r := config.geometry.rowBits
    let c := config.geometry.colBits
    let a := config.geometry.addressBits
    Outcome (Exhausted (∃ state, scheme.Dry state)) (fun run => run.machine.cycles = n ∧
      run.machine.stats.and =
        n * (68 * N + 2 * 2 ^ c * (c - 1) + 2 * 2 ^ r * (r - 1) + 3 * a + 227) ∧
      run.machine.stats.xor = n * (96 * N + 5 * a + 234) ∧
      run.machine.stats.not = n * (2 * a + 19)) (m.run n) := by
  obtain ⟨G, accepted⟩ := accepted_of_load loaded
  obtain rfl := Gates.scheme_of_ofScheme accepted
  have spent := load_spends G config image state
  have intact := load_intact G config image state
  rw [loaded] at spent intact
  obtain ⟨none, start⟩ := spent
  have counted : m.Counted G config := ⟨intact.2, by rw [none, start, zero_nsmul]⟩
  have steps := counted.steps n
  rw [← m.run_eq_steps n] at steps
  apply steps.of_map.mono
  rintro run ⟨⟨_, gates⟩, cycles⟩
  rw [start, Nat.zero_add] at cycles
  rw [cycles] at gates
  simp only [GateStats.gates, Cycle.gates, Prod.smul_mk, Nat.nsmul_eq_mul, Prod.mk.injEq] at gates
  exact ⟨cycles, gates⟩

/-- Twelve cycles on a memory of two rows of four words, visited in any order, on a budget that
leaves room for two gates. -/
theorem run_gates_smallest_budget :
    let growing : NoiseModel :=
      { fresh := 10, budget := 12, growth := fun _ left right => max left right + 1 }
    let config : MachineConfig := ⟨⟨1, 2, by decide, by decide, by decide⟩, true, false⟩
    let image : EncryptedImage Bool := ⟨[⟨List.replicate 16 ⟨true, 3⟩⟩],
      ⟨List.replicate 3 ⟨true, 5⟩⟩, ⟨List.replicate 16 ⟨false, 6⟩⟩⟩
    ∃ m, load (Scheme.plain growing) config image () = .ok m ∧
      ∃ run, m.run 12 = .ok run ∧ run.machine.cycles = 12 ∧
        run.machine.stats.and = 12 * 788 ∧ run.machine.stats.xor = 12 * 1017 ∧
        run.machine.stats.not = 12 * 25 := by
  intro growing config image
  let G : Gates Bool Unit := ⟨Scheme.plain growing, by decide⟩
  have never : ¬ ∃ state, G.scheme.Dry state := by
    rintro ⟨_, ⟨_, none⟩ | ⟨_, none⟩⟩ <;> cases none
  have fits : image.Fits config.geometry := ⟨by decide, by decide, rfl, rfl⟩
  obtain ⟨m, loaded, _⟩ := load_answers (G := G) config never fits ()
  obtain ⟨run, ran, counts⟩ := (run_gates loaded 12).answer fun _ exhausted => never exhausted.2
  exact ⟨m, loaded, run, ran, counts⟩

end Machine

end CipherMachine
