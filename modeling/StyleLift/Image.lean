import StyleLift.Disk.Access
import StyleLift.Value

/-!
# Inlining images

An image that a declaration refers to is looked up next to the declaring file and written into
the sheet of images as a data URL.  Its bytes are written in Base64, three bytes as four characters
of the standard alphabet; one or two bytes at the end are filled up with `=`.
-/

namespace StyleLift

namespace Text

/-- The standard alphabet. -/
def base64Alphabet : Text :=
  "ABCDEFGHIJKLMNOPQRSTUVWXYZabcdefghijklmnopqrstuvwxyz0123456789+/".toList

/-- The character for six bits. -/
def base64Digit (n : Nat) : Char := base64Alphabet.getD (n % 64) '='

/-- Bytes in Base64. -/
def base64 : List UInt8 → Text
  | [] => []
  | [a] =>
    let n := a.toNat * 16
    [base64Digit (n / 64), base64Digit n, '=', '=']
  | [a, b] =>
    let n := (a.toNat * 256 + b.toNat) * 4
    [base64Digit (n / 4096), base64Digit (n / 64), base64Digit n, '=']
  | a :: b :: c :: rest =>
    let n := (a.toNat * 256 + b.toNat) * 256 + c.toNat
    base64Digit (n / 262144) :: base64Digit (n / 4096) :: base64Digit (n / 64) ::
      base64Digit n :: base64 rest

end Text

namespace Image

/-- Why an image cannot be encoded. -/
inductive Fault where
  | unreadable (path : Path) (cause : IoFault)
  /-- An encoder of one's own gave up. -/
  | refused (reason : Text)
  deriving DecidableEq, Repr

/-- The message for an image that cannot be encoded. -/
def Fault.message : Fault → Text
  | .unreadable path cause =>
    "Failed to read image: ".toList ++ path.text ++ ": ".toList ++ cause.message
  | .refused reason => reason

/-- Turns the image at a path of a disk into text. -/
abbrev Encoder := Disk → Path → Except Fault Text

/-- The encoder that writes the bytes of the file in Base64. -/
def base64 : Encoder := fun disk path =>
  match disk.read path with
  | .ok content => .ok (Text.base64 content.toList)
  | .error cause => .error (.unreadable path cause)

/-- The data URL of an encoded image. -/
def dataUrl (path : Path) (encoded : Text) : Text :=
  "url(data:image/".toList ++ Text.lower (path.extension?.getD []) ++ ";base64,".toList ++
    encoded ++ ")".toList

/-- The path of the image that a file refers to.  A query or fragment does not belong to it. -/
def assetPath (source : Path) (reference : Text) : Path :=
  (source.parent?.getD ⟨[]⟩).join (Value.withoutQuery reference)

end Image

end StyleLift
