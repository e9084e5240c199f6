import CipherMachine.Proofs.CommandLine.Agreement
import CipherMachine.Proofs.Disassembly

set_option autoImplicit false

/-!
What the commands show of a memory and of an image loses nothing: it tells them from all others.
-/

namespace CipherMachine

/-- The bytes of a text hold the image that the text denotes. -/
theorem Image.ofBytes_toUTF8 (text : String) :
    Image.ofBytes text.toUTF8 = (Image.read text.toList).mapError ImageFileError.malformed := by
  have decoded : String.fromUTF8? text.toUTF8 = some text := by
    simp [String.fromUTF8?, String.fromUTF8, String.toUTF8, text.isValidUTF8]
  rw [Image.ofBytes, decoded]

namespace CommandLine

variable {σ : Type} {libs : Libraries}

/-- The arguments ask for the disassembly of a file, which holds the image. -/
def Disassembles (libs : Libraries) (host : Host (StateM σ)) (arguments : List String) (world : σ)
    (image : Image) : Prop :=
  ∃ path bytes, libs.parse arguments = .ok (.disasm path) ∧
    ((host.read path).run world).run.1 = .ok bytes ∧ Image.ofBytes bytes = .ok image

theorem loadImage_ended (host : Host (StateM σ)) (path : String) (world : σ) :
    (ended (loadImage host path) world).1 =
      (((host.read path).run world).run.1.mapError ImageFileError.unreadable >>=
        Image.ofBytes).mapError (Failure.image path) := by
  unfold loadImage
  rw [ended_bind, ended_look]
  rfl

theorem disasm_ended (host : Host (StateM σ)) (path : String) (world : σ) :
    (ended (disasm host path) world).1 = (ended (loadImage host path) world).1.map fun image =>
      .success (Disassembly.render image) := by
  unfold disasm
  rw [ended_bind]
  rcases ended (loadImage host path) world with ⟨_ | image, after⟩ <;> rfl

theorem Disassembles.answer_eq {host : Host (StateM σ)} {arguments : List String} {world : σ}
    {image : Image} (disassembles : Disassembles libs host arguments world image) :
    ((respond libs host arguments).run world).run.1 =
      some (.success (Disassembly.render image)) := by
  obtain ⟨path, bytes, asked, read, holds⟩ := disassembles
  have loaded : (ended (loadImage host path) world).1 = .ok image := by
    rw [loadImage_ended, read]
    change (Image.ofBytes bytes).mapError _ = _
    rw [holds]
    rfl
  have ends := disasm_ended host path world
  rw [loaded] at ends
  rw [respond_ended asked]
  exact congrArg (answer libs) ends

/-- A listing is made of lines of eight words, each behind its address, from which the words are
read back in their order; so different memories are listed differently. Every file that holds an
image is disassembled, and two files alike if and only if they hold the same image, with the same
registers and words. -/
theorem listings_lossless :
    (∀ memory, ∃ rows, (Listing.render memory).toList = rows.flatMap (· ++ ['\n']) ∧
      Listing.Lists 0 memory rows) ∧
    (∀ memory memory', Listing.render memory = Listing.render memory' → memory = memory') ∧
    ∀ {σ σ' : Type} (libs : Libraries) (host : Host (StateM σ)) (host' : Host (StateM σ'))
      (arguments arguments' : List String) (world : σ) (world' : σ') (image image' : Image),
      Disassembles libs host arguments world image →
      Disassembles libs host' arguments' world' image' →
        ∃ shown shown', ((respond libs host arguments).run world).run.1 = some shown ∧
          ((respond libs host' arguments').run world').run.1 = some shown' ∧
          shown.exitCode = 0 ∧ (shown.output = shown'.output ↔ image = image') := by
  refine ⟨Listing.render_lists, fun _ _ same => Listing.render_injective same, ?_⟩
  intro σ σ' libs host host' arguments arguments' world world' image image' disassembles
    disassembles'
  exact ⟨_, _, disassembles.answer_eq, disassembles'.answer_eq, rfl,
    Disassembly.render_injective.eq_iff⟩

/-- One file, which holds the instructions of `tickingHost`, the first in a word with a bit that
instructions ignore. -/
def markedHost : Host (StateM Unit) where
  read path := pure (if path = "marked" then .ok ".org 1\n+2849\n.org 0\n0x2f00\n.ac 4660".toUTF8
    else .error .notFound)
  clock := pure 0

/-- Words with the same instruction are told from each other. -/
theorem listings_lossless_marked :
    Disassembles .standard tickingHost ["disasm", "image"] 0 ⟨0, 0x1234, [0x0F00, 0x0B21]⟩ ∧
      Disassembles .standard markedHost ["disasm", "marked"] () ⟨0, 0x1234, [0x2F00, 0x0B21]⟩ ∧
      ∃ shown shown',
        ((respond .standard tickingHost ["disasm", "image"]).run 0).run.1 = some shown ∧
        ((respond .standard markedHost ["disasm", "marked"]).run ()).run.1 = some shown' ∧
        shown.output ≠ shown'.output := by
  have plain : Disassembles .standard tickingHost ["disasm", "image"] 0
      ⟨0, 0x1234, [0x0F00, 0x0B21]⟩ := by
    refine ⟨"image", _, rfl, rfl, ?_⟩
    rw [Image.ofBytes_toUTF8]
    decide
  have marked : Disassembles .standard markedHost ["disasm", "marked"] ()
      ⟨0, 0x1234, [0x2F00, 0x0B21]⟩ := by
    refine ⟨"marked", _, rfl, rfl, ?_⟩
    rw [Image.ofBytes_toUTF8]
    decide
  have ⟨shown, shown', answered, answered', _, alike⟩ :=
    listings_lossless.2.2 _ _ _ _ _ _ _ _ _ plain marked
  refine ⟨plain, marked, shown, shown', answered, answered', fun same => ?_⟩
  have equal := alike.mp same
  revert equal
  decide

end CommandLine

end CipherMachine
