import CipherMachine.Proofs.Machine.Decryption
import CipherMachine.Scheme.Recorded

set_option autoImplicit false

/-!
Schemes whose ciphertexts are the plain bits.

They need no budget to compute correctly, so the machine simulates the interpreter under any
noise model that gates accept, whatever refreshes the model asks for.
-/

namespace CipherMachine

open GateM

variable {S : Type}

/-- A ciphertext is the bit itself, and every operation answers. -/
structure Scheme.PlainBit (scheme : Scheme Bool S) : Prop where
  encrypt : ∀ x s, ∃ t, scheme.encrypt x s = some (x, t)
  refresh : ∀ x s, ∃ t, scheme.refresh x s = some (x, t)
  decrypt : ∀ x, scheme.decrypt x = x
  not : ∀ x s, (scheme.eval (.not x) s).1 = !x
  and : ∀ x y s, (scheme.eval (.and x y) s).1 = (x && y)
  xor : ∀ x y s, (scheme.eval (.xor x y) s).1 = (x ^^ y)

namespace Scheme

theorem plainBit_plain (noise : NoiseModel) : (Scheme.plain noise).PlainBit where
  encrypt _ _ := ⟨_, rfl⟩
  refresh _ _ := ⟨_, rfl⟩
  decrypt _ := rfl
  not _ _ := rfl
  and _ _ _ := rfl
  xor _ _ _ := rfl

namespace PlainBit

variable {scheme : Scheme Bool S}

/-- Recording calls leaves a ciphertext the plain bit. -/
theorem recorded (plain : scheme.PlainBit) : scheme.recorded.PlainBit where
  encrypt x s := by
    obtain ⟨t, answer⟩ := plain.encrypt x s.inner
    refine ⟨⟨t, .encrypt :: s.calls⟩, ?_⟩
    change Option.map _ (scheme.encrypt x s.inner) = _
    rw [answer]
    rfl
  refresh x s := by
    obtain ⟨t, answer⟩ := plain.refresh x s.inner
    refine ⟨⟨t, .refresh :: s.calls⟩, ?_⟩
    change Option.map _ (scheme.refresh x s.inner) = _
    rw [answer]
    rfl
  decrypt := plain.decrypt
  not x s := plain.not x s.inner
  and x y s := plain.and x y s.inner
  xor x y s := plain.xor x y s.inner

theorem preserves (plain : scheme.PlainBit) :
    scheme.Preserves (fun c _ x => c = x) fun _ => False where
  encrypt x s := by
    obtain ⟨t, answer⟩ := plain.encrypt x s
    rw [answer]
    rfl
  refresh := by
    rintro c n x rfl s
    obtain ⟨t, answer⟩ := plain.refresh c s
    rw [answer]
    rfl
  not := by
    rintro c n x rfl _ s
    exact plain.not c s
  and := by
    rintro c d n k x y rfl rfl _ s
    exact plain.and c d s
  xor := by
    rintro c d n k x y rfl rfl _ s
    exact plain.xor c d s

/-- Decryption gives the bit itself, whatever its estimate. -/
theorem opens {G : Gates Bool S} (plain : G.scheme.PlainBit) :
    G.Opens (Gates.reading fun c _ x => c = x) :=
  fun read => (plain.decrypt _).trans read

theorem reads {G : Gates Bool S} (plain : G.scheme.PlainBit) (b : Bit Bool) :
    Gates.reading (fun c _ x => c = x) b (G.decrypt b) :=
  (plain.decrypt b.cipher).symm

theorem holds {G : Gates Bool S} (plain : G.scheme.PlainBit) {w : Word Bool} {width : Nat}
    (same : w.width = width) :
    w.Holds (Gates.reading fun c _ x => c = x) width (G.value w) :=
  Gates.Opens.holds_value plain.opens (fun b _ => ⟨_, plain.reads b⟩) same

end PlainBit

end Scheme

/-- The encrypted machine on plain bits simulates the interpreter: an image that fits is encrypted
and loaded, and after any number of cycles both hold the same memory and registers. -/
theorem Machine.plainBit_simulates {scheme : Scheme Bool S} {G : Gates Bool S}
    (plain : scheme.PlainBit) (accepted : Gates.ofScheme scheme = .ok G) (config : MachineConfig)
    (image : Image) (fits : image.checkFits config.geometry = .ok ()) (state : S) :
    ∃ sealed encrypted m it,
      EncryptedImage.encrypt scheme image config.geometry state = .ok (sealed, encrypted) ∧
        load scheme config sealed encrypted = .ok m ∧
        Interpreter.load config.geometry image = .ok it ∧
        ∀ n, ∃ final, m.steps n = .ok final ∧
          final.Shows (it.run n) := by
  obtain rfl := Gates.scheme_of_ofScheme accepted
  have hom := Gates.homomorphic plain.preserves
  have opens : G.Opens (Gates.reading fun c _ x => c = x) := fun read =>
    (plain.decrypt _).trans read
  have never : ∀ error, ¬ ExhaustedLoad (∃ _ : S, False) error :=
    fun _ holds => holds.2.elim fun _ => id
  obtain ⟨⟨sealed, encrypted⟩, sealing, shows⟩ :=
    (EncryptedImage.encrypt_outcome hom fits state).answer never
  obtain ⟨it, interpreted, loading⟩ := load_outcome hom config shows fits encrypted
  obtain ⟨m, loaded, gates, tracks⟩ := loading.answer never
  subst gates
  refine ⟨sealed, encrypted, m, it, sealing, loaded, interpreted, fun n => ?_⟩
  obtain ⟨final, stepped, gates, tracks⟩ := (tracks.steps n hom).answer
    fun _ holds => holds.2.elim fun _ => id
  rw [← gates] at opens
  exact ⟨final, stepped, tracks.dump_shows opens⟩

/-- A program that overwrites its first word, under a budget with no room above a conjunction of
fresh ciphertexts. -/
theorem Machine.plainBit_simulates_store :
    ∃ sealed encrypted m it,
      EncryptedImage.encrypt (Scheme.plain { fresh := 3, budget := 6 }).recorded
          ⟨0, 0x1234, [0x0F00, 0x0B21, 0x0001]⟩ .standard ⟨(), []⟩ = .ok (sealed, encrypted) ∧
        load (Scheme.plain { fresh := 3, budget := 6 }).recorded {} sealed encrypted = .ok m ∧
        Interpreter.load .standard ⟨0, 0x1234, [0x0F00, 0x0B21, 0x0001]⟩ = .ok it ∧
        ∀ n, ∃ final, m.steps n = .ok final ∧ final.Shows (it.run n) :=
  plainBit_simulates (Scheme.plainBit_plain _).recorded (Gates.ofScheme_scheme ⟨_, by decide⟩) {}
    _ rfl _

end CipherMachine
