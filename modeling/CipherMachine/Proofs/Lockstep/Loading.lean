import CipherMachine.Proofs.Lockstep.Machine
import CipherMachine.Proofs.Machine.Loading

set_option autoImplicit false

/-!
Loading takes the same steps for every image that fits.

What an image does not hold is padded with encryptions of zero, so the number of encryptions
depends on the shape of the memory alone. A load is compared with that number of encryptions of
zero, and two loads through it.
-/

namespace CipherMachine

open GateM

variable {C S : Type}

def Scheme.afterEncryptions (scheme : Scheme C S) : Nat → S → Except Fault S
  | 0, t => .ok t
  | n + 1, t =>
    match scheme.encrypt false t with
    | some (_, t) => scheme.afterEncryptions n t
    | none => .error .exhausted

theorem Scheme.afterEncryptions_add (scheme : Scheme C S) (n k : Nat) (t : S) :
    scheme.afterEncryptions (n + k) t =
      scheme.afterEncryptions n t >>= scheme.afterEncryptions k := by
  induction n generalizing t with
  | zero =>
      rw [Nat.zero_add]
      rfl
  | succ n ih =>
      rw [Nat.succ_add, afterEncryptions, afterEncryptions]
      cases scheme.encrypt false t with
      | none => rfl
      | some answer => exact ih answer.2

namespace GateM

variable {α β γ : Type} {G : Gates C S} {ρ : S → S → Prop} {n k : Nat}

/-- An answer with the session that it leaves, or a fault. -/
def attempt (m : GateM S α) (s : Session S) : Except Fault (α × Session S) :=
  match m.exec s with
  | (.ok a, t) => .ok (a, t)
  | (.error fault, _) => .error fault

theorem attempt_bind (m : GateM S α) (f : α → GateM S β) (s : Session S) :
    (m >>= f).attempt s = m.attempt s >>= fun answer => (f answer.1).attempt answer.2 := by
  unfold attempt
  rw [exec_bind]
  rcases m.exec s with ⟨_ | _, t⟩ <;> rfl

/-- A session that has evaluated nothing, in a state related to `t`. -/
def Unused (ρ : S → S → Prop) (s : Session S) (t : S) : Prop :=
  s.stats = {} ∧ ρ s.state t

/-- The computation does what `n` encryptions of zero do, from related states. Its result
satisfies `P`. -/
def Draws (G : Gates C S) (ρ : S → S → Prop) (n : Nat) (m : GateM S α) (P : α → Prop) : Prop :=
  ∀ s t, Unused ρ s t → Outcome₂ Eq (fun answer t => P answer.1 ∧ Unused ρ answer.2 t)
    (m.attempt s) (G.scheme.afterEncryptions n t)

namespace Draws

variable {m : GateM S α} {P : α → Prop}

theorem pure {a : α} (holds : P a) : Draws G ρ 0 (Pure.pure a) P :=
  fun _ _ unused => ⟨holds, unused⟩

theorem bind {f : α → GateM S β} {T : β → Prop} (first : Draws G ρ n m P)
    (next : ∀ a, P a → Draws G ρ k (f a) T) : Draws G ρ (n + k) (m >>= f) T := by
  intro s t unused
  rw [attempt_bind, Scheme.afterEncryptions_add]
  exact (first s t unused).bind fun answer t ⟨holds, unused⟩ =>
    next answer.1 holds answer.2 t unused

theorem encrypt (uniform : G.scheme.UniformEncryption ρ) (x : Bool) :
    Draws G ρ 1 (G.encrypt x) (·.noise = G.noise.fresh) := by
  refine bind (k := 0) (P := fun _ => True) ?_ fun _ _ => pure rfl
  intro s t ⟨stats, related⟩
  have paired := uniform x false related
  unfold attempt Scheme.afterEncryptions
  rw [exec_call]
  cases encrypted : G.scheme.encrypt x s.state with
  | none =>
      cases reference : G.scheme.encrypt false t with
      | none => rfl
      | some _ =>
          rw [encrypted, reference] at paired
          exact paired.elim
  | some _ =>
      cases reference : G.scheme.encrypt false t with
      | none =>
          rw [encrypted, reference] at paired
          exact paired.elim
      | some _ =>
          rw [encrypted, reference] at paired
          exact ⟨trivial, stats, paired⟩

theorem mapM {f : α → GateM S β} {shape : β → γ} {c : γ}
    (step : ∀ a, Draws G ρ n (f a) (shape · = c)) (as : List α) :
    Draws G ρ (as.length * n) (as.mapM f) (·.map shape = List.replicate as.length c) := by
  induction as with
  | nil =>
      rw [List.length_nil, Nat.zero_mul]
      exact pure rfl
  | cons a as ih =>
      rw [List.length_cons, Nat.succ_mul, Nat.add_comm, List.mapM_cons]
      refine (step a).bind fun b first => ?_
      refine ih.bind (k := 0) fun bs rest => pure ?_
      rw [List.map_cons, first, rest, List.replicate_succ]

theorem encryptWord (uniform : G.scheme.UniformEncryption ρ) (value width : Nat)
    (narrow : width ≤ 64) :
    Draws G ρ width (G.encryptWord value width)
      (·.noises = List.replicate width G.noise.fresh) := by
  have bits := mapM (fun i => encrypt uniform (value.testBit i)) (List.range width)
  rw [List.length_range, Nat.mul_one] at bits
  unfold Gates.encryptWord
  rw [if_neg (Nat.not_lt.mpr narrow)]
  exact bits.bind (k := 0) fun bits fresh => pure fresh

/-- A computation on a session of its own, whose faults a load reports. -/
theorem load {s t : S} {f : α → Session S → β} {T : β → S → Prop} (draws : Draws G ρ n m P)
    (related : ρ s t) (holds : ∀ a session t, P a → Unused ρ session t → T (f a session) t) :
    Outcome₂ (fun error fault => error = LoadError.fault fault) T
      ((m.exec ⟨s, {}⟩).1.mapError LoadError.fault >>= fun a => .ok (f a (m.exec ⟨s, {}⟩).2))
      (G.scheme.afterEncryptions n t) := by
  have result := draws ⟨s, {}⟩ t ⟨rfl, related⟩
  unfold attempt at result
  generalize m.exec ⟨s, {}⟩ = run at result ⊢
  generalize G.scheme.afterEncryptions n t = reference at result ⊢
  obtain ⟨answer, session⟩ := run
  cases reference with
  | ok t =>
      cases answer with
      | ok a =>
          obtain ⟨answers, unused⟩ : P a ∧ Unused ρ session t := result
          exact holds a session t answers unused
      | error fault => exact False.elim result
  | error fault =>
      cases answer with
      | ok a => exact False.elim result
      | error fault' => exact congrArg LoadError.fault result

end Draws

end GateM

variable {G : Gates C S} {ρ : S → S → Prop} {image : Image}

def Gates.FreshWord (G : Gates C S) (width : Nat) (w : Word C) : Prop :=
  w.noises = List.replicate width G.noise.fresh

def Gates.FreshWords (G : Gates C S) (count : Nat) (words : List (Word C)) : Prop :=
  words.map Word.noises = List.replicate count (List.replicate 16 G.noise.fresh)

namespace EncryptedImage

/-- Words and registers of fresh bits, as many as an image has. -/
structure Fresh (G : Gates C S) (g : Geometry) (count : Nat) (sealed : EncryptedImage C) :
    Prop where
  memory : G.FreshWords count sealed.memory
  pc : G.FreshWord g.addressBits sealed.pc
  ac : G.FreshWord 16 sealed.ac

theorem sealed_draws (uniform : G.scheme.UniformEncryption ρ) (image : Image) (g : Geometry) :
    Draws G ρ (image.words.length * 16 + (g.addressBits + 16)) (sealed G image g)
      (Fresh G g image.words.length) := by
  have narrow : g.addressBits ≤ 64 := Nat.le_trans g.addressBits_le (by decide)
  have words := Draws.mapM (fun word : UInt16 => .encryptWord uniform word.toNat 16 (by decide))
    image.words
  unfold sealed
  refine words.bind fun memory hm => ?_
  refine (Draws.encryptWord uniform image.pc.toNat _ narrow).bind fun pc hpc => ?_
  exact (Draws.encryptWord uniform image.ac.toNat 16 (by decide)).bind (k := 0) fun ac hac =>
    .pure ⟨hm, hpc, hac⟩

theorem encrypt_draws (uniform : G.scheme.UniformEncryption ρ) {g : Geometry}
    (fits : image.checkFits g = .ok ()) {s t : S} (related : ρ s t) :
    Outcome₂ (fun error fault => error = LoadError.fault fault)
      (fun result t => result.1.Fresh G g image.words.length ∧ ρ result.2 t)
      (encrypt G.scheme image g s)
      (G.scheme.afterEncryptions (image.words.length * 16 + (g.addressBits + 16)) t) := by
  unfold encrypt
  rw [fits, Gates.ofScheme_scheme]
  exact (sealed_draws uniform image g).load (f := fun sealed session => (sealed, session.state))
    related fun _ _ _ fresh unused => ⟨fresh, unused.2⟩

theorem Fresh.length_eq {g : Geometry} {count : Nat} {sealed : EncryptedImage C}
    (fresh : sealed.Fresh G g count) : sealed.memory.length = count := by
  have sizes := congrArg List.length fresh.memory
  rw [List.length_map, List.length_replicate] at sizes
  exact sizes

theorem Fresh.check {g : Geometry} {count : Nat} {sealed : EncryptedImage C}
    (fresh : sealed.Fresh G g count) (fits : count ≤ g.capacity) : sealed.check g = .ok () := by
  have width : ∀ {width : Nat} {w : Word C}, w.noises = List.replicate width G.noise.fresh →
      w.width = width := by
    intro width w noises
    have sizes := congrArg List.length noises
    rw [Word.noises, List.length_map, List.length_replicate] at sizes
    exact sizes
  refine (sealed.check_eq_ok g).mpr ⟨?_, ?_, width fresh.pc, width fresh.ac⟩
  · rw [fresh.length_eq]
    exact fits
  · intro word member
    apply width
    have noises := List.mem_map_of_mem (f := Word.noises) member
    rw [fresh.memory] at noises
    exact List.eq_of_mem_replicate noises

end EncryptedImage

namespace Machine

/-- A machine whose bits are all fresh, before its first cycle and its first gate. -/
structure Fresh (G : Gates C S) (config : MachineConfig) (m : Machine C S) : Prop where
  gates : m.gates = G
  configured : m.config = config
  geometry : m.memory.geometry = config.geometry
  cells : G.FreshWords config.geometry.capacity m.memory.cells
  pc : G.FreshWord config.geometry.addressBits m.registers.pc
  ac : G.FreshWord 16 m.registers.ac
  carry : m.registers.carry.noise = G.noise.fresh
  zero : m.registers.zero.noise = G.noise.fresh
  minus : m.registers.minus.noise = G.noise.fresh
  staging : G.FreshWord 16 m.registers.staging
  one : m.one.noise = G.noise.fresh
  stats : m.session.stats = {}
  cycles : m.cycles = 0

theorem Fresh.alike {config : MachineConfig} {m m' : Machine C S} (fresh : m.Fresh G config)
    (fresh' : m'.Fresh G config) (related : ρ m.session.state m'.session.state) :
    m.Alike ρ m' := by
  have word : ∀ {width : Nat} {v w : Word C}, G.FreshWord width v → G.FreshWord width w →
      v.Alike w := fun hv hw => Word.alike_iff.mpr (hv.trans hw.symm)
  refine ⟨fresh.gates.trans fresh'.gates.symm, fresh.configured.trans fresh'.configured.symm,
    ⟨fresh.geometry.trans fresh'.geometry.symm, ?_⟩,
    ⟨word fresh.pc fresh'.pc, word fresh.ac fresh'.ac, fresh.carry.trans fresh'.carry.symm,
      fresh.zero.trans fresh'.zero.symm, fresh.minus.trans fresh'.minus.symm,
      word fresh.staging fresh'.staging⟩,
    fresh.one.trans fresh'.one.symm, ⟨fresh.stats.trans fresh'.stats.symm, related⟩,
    fresh.cycles.trans fresh'.cycles.symm⟩
  have cells := (forall₂_map_eq_iff Word.noises).mpr (fresh.cells.trans fresh'.cells.symm)
  exact cells.imp fun _ _ => Word.alike_iff.mpr

/-- The padding makes up for the words that an image does not hold. -/
theorem initial_draws (uniform : G.scheme.UniformEncryption ρ) {g : Geometry} {count : Nat}
    (fits : count ≤ g.capacity) {sealed : EncryptedImage C} (fresh : sealed.Fresh G g count) :
    Draws G ρ ((g.capacity - count) * 16 + 20) (initial G g sealed)
      fun (memory, registers, one) => memory.geometry = g ∧
        G.FreshWords g.capacity memory.cells ∧ G.FreshWord g.addressBits registers.pc ∧
        G.FreshWord 16 registers.ac ∧ registers.carry.noise = G.noise.fresh ∧
        registers.zero.noise = G.noise.fresh ∧ registers.minus.noise = G.noise.fresh ∧
        G.FreshWord 16 registers.staging ∧ one.noise = G.noise.fresh := by
  have padding := Draws.mapM (fun word => .encryptWord uniform word 16 (by decide))
    (List.replicate (g.capacity - sealed.memory.length) 0)
  rw [List.length_replicate, fresh.length_eq] at padding
  unfold initial
  rw [fresh.length_eq]
  refine padding.bind fun padding hpadding => ?_
  refine (Draws.encrypt uniform false).bind (k := 19) fun carry hcarry => ?_
  refine (Draws.encrypt uniform false).bind (k := 18) fun zero hzero => ?_
  refine (Draws.encrypt uniform false).bind (k := 17) fun minus hminus => ?_
  refine (Draws.encryptWord uniform 0 16 (by decide)).bind (k := 1) fun staging hstaging => ?_
  refine (Draws.encrypt uniform true).bind (k := 0) fun one hone => ?_
  refine .pure ⟨rfl, ?_, fresh.pc, fresh.ac, hcarry, hzero, hminus, hstaging, hone⟩
  unfold Gates.FreshWords
  rw [List.map_append, fresh.memory, hpadding, List.replicate_append_replicate,
    Nat.add_sub_cancel' fits]

theorem load_draws (uniform : G.scheme.UniformEncryption ρ) (config : MachineConfig) {count : Nat}
    (fits : count ≤ config.geometry.capacity) {sealed : EncryptedImage C}
    (fresh : sealed.Fresh G config.geometry count) {s t : S} (related : ρ s t) :
    Outcome₂ (fun error fault => error = LoadError.fault fault)
      (fun m t => m.Fresh G config ∧ ρ m.session.state t) (load G.scheme config sealed s)
      (G.scheme.afterEncryptions ((config.geometry.capacity - count) * 16 + 20) t) := by
  unfold load
  rw [fresh.check fits, Gates.ofScheme_scheme]
  refine (initial_draws uniform fits fresh).load (f := fun (memory, registers, one) session =>
    Machine.mk G config memory registers one session 0) related ?_
  rintro ⟨memory, registers, one⟩ session t ⟨geometry, cells, pc, ac, carry, zero, minus,
    staging, one⟩ ⟨stats, related⟩
  exact ⟨⟨rfl, rfl, geometry, cells, pc, ac, carry, zero, minus, staging, one, stats, rfl⟩, related⟩

/-- Encrypting and loading takes sixteen encryptions for every cell of the memory, one for every
address bit and thirty-six more, whatever the image. -/
theorem ofImage_draws (uniform : G.scheme.UniformEncryption ρ) (config : MachineConfig)
    (fits : image.checkFits config.geometry = .ok ()) {s t : S} (related : ρ s t) :
    Outcome₂ (fun error fault => error = LoadError.fault fault)
      (fun m t => m.Fresh G config ∧ ρ m.session.state t) (ofImage G.scheme config image s)
      (G.scheme.afterEncryptions
        (config.geometry.capacity * 16 + config.geometry.addressBits + 36) t) := by
  have bounds := (image.checkFits_eq_ok config.geometry).mp fits
  have total : config.geometry.capacity * 16 + config.geometry.addressBits + 36 =
      image.words.length * 16 + (config.geometry.addressBits + 16) +
        ((config.geometry.capacity - image.words.length) * 16 + 20) := by
    have words := bounds.1
    omega
  rw [total, Scheme.afterEncryptions_add]
  exact (EncryptedImage.encrypt_draws uniform fits related).bind fun _ _ ⟨fresh, related⟩ =>
    load_draws uniform config bounds.1 fresh related

/-- Images that fit are loaded in lockstep, from states that are related to one state. -/
theorem ofImage_lockstep (uniform : G.scheme.UniformEncryption ρ)
    (euclidean : ∀ {a b c}, ρ a c → ρ b c → ρ a b) (config : MachineConfig) {image' : Image}
    (fits : image.checkFits config.geometry = .ok ())
    (fits' : image'.checkFits config.geometry = .ok ()) {s s' t : S} (related : ρ s t)
    (related' : ρ s' t) :
    Outcome₂ Eq (fun m m' => m.gates = G ∧ m.Alike ρ m') (ofImage G.scheme config image s)
      (ofImage G.scheme config image' s') := by
  refine (ofImage_draws uniform config fits related).join
    (ofImage_draws uniform config fits' related') ?_ ?_
  · rintro _ _ fault rfl rfl
    rfl
  · rintro m m' t ⟨fresh, state⟩ ⟨fresh', state'⟩
    exact ⟨fresh.gates, fresh.alike fresh' (euclidean state state')⟩

end Machine

end CipherMachine
