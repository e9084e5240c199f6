import CipherMachine.Proofs.Machine.Simulation
import Mathlib.Order.Bounds.Defs

set_option autoImplicit false

/-!
Runs are cancelled between whole cycles only, and can be resumed.

An observer is any rule, with a world of its own, for what it leaves in the stop flag when it is
shown a machine. A run checks the flag before every cycle. So it completes the least number of
cycles after which the flag is set or none is left, it shows the observer the machine after each of
them, and the machine that it leaves goes on as if nothing had happened.
-/

namespace CipherMachine.Machine

variable {C S σ : Type}

theorem steps_succ {m next : Machine C S} {events : List Event}
    (stepped : m.step = .ok (next, events)) (n : Nat) : m.steps (n + 1) = next.steps n := by
  rw [steps, stepped]
  rfl

theorem steps_add (k n : Nat) (m : Machine C S) :
    m.steps (k + n) = m.steps k >>= fun halfway => halfway.steps n := by
  induction k generalizing m with
  | zero =>
      rw [Nat.zero_add]
      rfl
  | succ k ih =>
      rw [Nat.succ_add, steps, steps]
      cases m.step with
      | ok result => exact ih result.1
      | error fault => rfl

/-- `seen` lists the machines after one cycle, after two cycles, and so on. -/
def Trail (m : Machine C S) (seen : List (Machine C S)) : Prop :=
  ∀ i next, seen[i]? = some next → m.steps (i + 1) = .ok next ∧ next.cycles = m.cycles + (i + 1)

theorem Trail.nil (m : Machine C S) : m.Trail [] := nofun

theorem Trail.cons {m next : Machine C S} {events : List Event} {seen : List (Machine C S)}
    (stepped : m.step = .ok (next, events)) (trail : next.Trail seen) :
    m.Trail (next :: seen) := by
  intro i later found
  rw [steps_succ stepped]
  have counted := cycles_step stepped
  cases i with
  | zero =>
      obtain rfl := Option.some.inj found
      exact ⟨rfl, counted⟩
  | succ i =>
      obtain ⟨reached, cycles⟩ := trail i later found
      refine ⟨reached, ?_⟩
      rw [cycles, counted]
      omega

/-- What an observer leaves in the flag and in its world when it is shown machines one after
another. -/
def shown (observe : Machine C S → StateM σ Bool) (stop : Bool) (world : σ)
    (seen : List (Machine C S)) : Bool × σ :=
  seen.foldl (fun left m => ((observe m).run left.2).run) (stop, world)

/-- A run of up to `n` cycles has shown its observer the machines `seen` and has ended. -/
structure Ended (observe : Machine C S → StateM σ Bool) (n : Nat) (stop : Bool) (world : σ)
    (m : Machine C S) (seen : List (Machine C S)) (run : Run C S) (after : σ) : Prop where
  /-- The observer was called once for every cycle completed, and for no other one. -/
  calls : seen.length = run.completed
  trail : m.Trail seen
  leaves : (shown observe stop world seen).2 = after
  /-- It ended as soon as no cycle was left or the flag was set. -/
  least : IsLeast {k | k = n ∨ (shown observe stop world (seen.take k)).1 = true} run.completed
  machine : m.steps run.completed = .ok run.machine
  /-- The cycles that are left lead where an uninterrupted run leads: to the same memory,
  registers, counters and state of the scheme, with all calls that the scheme may have recorded. -/
  resumes : (run.machine.run (n - run.completed)).map Run.machine = (m.run n).map Run.machine

/-- In a run of up to `n` cycles the observer has been shown the machines `seen`, the flag was not
set before any of them, and the run is at `last`. -/
structure Reached (observe : Machine C S → StateM σ Bool) (n : Nat) (stop : Bool) (world : σ)
    (m : Machine C S) (seen : List (Machine C S)) (last : Machine C S) : Prop where
  trail : m.Trail seen
  steps : m.steps seen.length = .ok last
  unset : ∀ k < seen.length, (shown observe stop world (seen.take k)).1 = false
  within : seen.length ≤ n

namespace Reached

variable {observe : Machine C S → StateM σ Bool} {n : Nat} {world : σ} {m : Machine C S}

theorem start (observe : Machine C S → StateM σ Bool) (n : Nat) (stop : Bool) (world : σ)
    (m : Machine C S) : Reached observe n stop world m [] m where
  trail := .nil m
  steps := rfl
  unset k below := absurd below (Nat.not_lt_zero k)
  within := Nat.zero_le n

/-- A cycle before what the run has reached from the next machine on. -/
theorem cons {next last : Machine C S} {events : List Event} {seen : List (Machine C S)}
    (stepped : m.step = .ok (next, events))
    (rest : Reached observe n ((observe next).run world).run.1 ((observe next).run world).run.2 next
      seen last) :
    Reached observe (n + 1) false world m (next :: seen) last where
  trail := .cons stepped rest.trail
  steps := (steps_succ stepped seen.length).trans rest.steps
  unset k below := by
    cases k with
    | zero => rfl
    | succ k => exact rest.unset k (Nat.lt_of_succ_lt_succ below)
  within := Nat.succ_le_succ rest.within

end Reached

/-- The cycles of a run, whether it ends or faults. The induction is on the cycles that are left:
the first machine seen is the next one, and the others are those that the next one leads to. -/
theorem cyclesFrom_trail (observe : Machine C S → StateM σ Bool) (n completed : Nat) (stop : Bool)
    (events : List Event) (m : Machine C S) (world : σ) :
    let result := ((cyclesFrom observe n completed stop events m).run world).run
    ∃ seen last, Reached observe n stop world m seen last ∧
      (shown observe stop world seen).2 = result.2 ∧
      Outcome
        (fun fault => seen.length < n ∧ (shown observe stop world seen).1 = false ∧
          m.steps (seen.length + 1) = .error fault)
        (fun run => run.completed = completed + seen.length ∧ run.machine = last ∧
          (seen.length = n ∨ (shown observe stop world seen).1 = true))
        result.1 := by
  induction n generalizing completed stop events m world with
  | zero => exact ⟨[], m, .start observe 0 stop world m, rfl, rfl, rfl, .inl rfl⟩
  | succ n ih =>
      have start := Reached.start observe (n + 1) stop world m
      cases stop with
      | true => exact ⟨[], m, start, rfl, rfl, rfl, .inr rfl⟩
      | false =>
          cases stepped : m.step with
          | error fault =>
              have faults : m.steps 1 = .error fault := by
                rw [steps, stepped]
                rfl
              rw [cyclesFrom, stepped]
              exact ⟨[], m, start, rfl, Nat.succ_pos n, rfl, faults⟩
          | ok result =>
              obtain ⟨next, happened⟩ := result
              obtain ⟨seen, last, reached, left, ends⟩ :=
                ih (completed + 1) ((observe next).run world).run.1 (happened.reverse ++ events)
                  next ((observe next).run world).run.2
              rw [cyclesFrom, stepped]
              refine ⟨next :: seen, last, .cons stepped reached, left, ends.imp ?_ ?_⟩
              · rintro fault ⟨due, flag, faults⟩
                exact ⟨Nat.succ_lt_succ due, flag, (steps_succ stepped _).trans faults⟩
              · rintro run ⟨count, machine, ended⟩
                refine ⟨?_, machine, ended.imp (congrArg Nat.succ) id⟩
                rw [count, List.length_cons]
                omega

/-- A run under any observer completes the least number of cycles after which none is left or the
flag is set, having shown the observer the machine after each of them; what it leaves can be
resumed. Only a fault of a cycle that was due keeps it from ending. -/
theorem runObserved_between_cycles (observe : Machine C S → StateM σ Bool) (n : Nat) (stop : Bool)
    (world : σ) (m : Machine C S) :
    let result := ((m.runObserved n stop observe).run world).run
    Outcome
      (fun fault => ∃ seen, m.Trail seen ∧ seen.length < n ∧
        (∀ k ≤ seen.length, (shown observe stop world (seen.take k)).1 = false) ∧
        m.steps (seen.length + 1) = .error fault)
      (fun run => ∃ seen, Ended observe n stop world m seen run result.2) result.1 := by
  obtain ⟨seen, last, ⟨trail, reached, unset, within⟩, left, ends⟩ :=
    cyclesFrom_trail observe n 0 stop [.running n] m world
  unfold runObserved
  rw [StateT.run_bind]
  rcases result : (cyclesFrom observe n 0 stop [.running n] m).run world with ⟨answer, after⟩
  rw [result] at left ends
  cases answer with
  | error fault =>
      obtain ⟨due, flag, faults⟩ := ends
      refine ⟨seen, trail, due, ?_, faults⟩
      intro k bound
      rcases Nat.lt_or_eq_of_le bound with below | rfl
      · exact unset k below
      · rwa [List.take_length]
  | ok run =>
      obtain ⟨count, machine, ended⟩ := ends
      rw [Nat.zero_add] at count
      subst machine
      refine ⟨seen, ⟨count.symm, trail, left, ⟨?_, ?_⟩, ?_, ?_⟩⟩
      · change run.completed = n ∨ (shown observe stop world (seen.take run.completed)).1 = true
        rw [count, List.take_length]
        exact ended
      · rintro k (rfl | set)
        · exact count ▸ within
        · change run.completed ≤ k
          rw [count]
          by_contra early
          rw [unset k (Nat.not_le.mp early)] at set
          contradiction
      · exact count ▸ reached
      · rw [run_eq_steps, run_eq_steps]
        change run.machine.steps (n - run.completed) = _
        rw [count]
        have whole := steps_add seen.length (n - seen.length) m
        rw [Nat.add_sub_cancel' within, reached] at whole
        exact whole.symm

end CipherMachine.Machine
