import CipherMachine.Image.Reader

set_option autoImplicit false

/-!
Image files: the text form of an image, encoded in UTF-8.
-/

namespace CipherMachine

/-- A refusal by the system that holds the files, in its words and with its number. -/
structure FileError where
  description : String
  code : Nat
  deriving DecidableEq

namespace FileError

def notFound : FileError := ⟨"No such file or directory", 2⟩

def permissionDenied : FileError := ⟨"Permission denied", 13⟩

def notDirectory : FileError := ⟨"Not a directory", 20⟩

def isDirectory : FileError := ⟨"Is a directory", 21⟩

def nameTooLong : FileError := ⟨"File name too long", 36⟩

/-- The error with the given number, in the usual words where the number is a common one. -/
def ofCode (code : Nat) (description : String) : FileError :=
  let known := [notFound, permissionDenied, notDirectory, isDirectory, nameTooLong]
  (known.find? (·.code == code)).getD ⟨description, code⟩

end FileError

inductive ImageFileError where
  | unreadable (error : FileError)
  /-- The bytes of the file are no text. -/
  | notText
  | malformed (error : ReadError)
  deriving DecidableEq

namespace ImageFileError

/-- The error from the outside in: reading failed, and why, or what is wrong with the text. -/
def messages : ImageFileError → List String
  | .unreadable error => whileReading s!"{error.description} (os error {error.code})"
  | .notText => whileReading "stream did not contain valid UTF-8"
  | .malformed error => [error.message]
where
  whileReading (cause : String) : List String := ["failed to read image: " ++ cause, cause]

end ImageFileError

def Image.ofBytes (bytes : ByteArray) : Except ImageFileError Image :=
  match String.fromUTF8? bytes with
  | some text => (Image.read text.toList).mapError ImageFileError.malformed
  | none => .error .notText

end CipherMachine
