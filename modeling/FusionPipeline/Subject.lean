import FusionPipeline.Library.Text

/-!
NATS subjects: the tenant a subject names, where a tenant's dead letters go, and which
subjects a pattern captures.
-/

namespace FusionPipeline.Subject

/-- The second token, when the first is the prefix and a third follows. -/
def tenantFromSubject (subject tenantPrefix : String) : Option String :=
  match subject.toList.splitOn '.' with
  | first :: tenant :: _ :: _ =>
      if first = tenantPrefix.toList ∧ tenant ≠ [] then some (String.ofList tenant) else none
  | _ => none

def isAsciiGraphic (byte : UInt8) : Bool :=
  decide (0x21 ≤ byte ∧ byte ≤ 0x7E)

def reserved : List Char :=
  ['.', '*', '>', '%']

def upperHexDigit (digit : Nat) : Char :=
  (Nat.digitChar digit).toUpper

/-- One byte of a tenant as a subject token holds it: itself, or `%XX`. -/
def escapeByte (byte : UInt8) : List Char :=
  let char := Char.ofNat byte.toNat
  if isAsciiGraphic byte ∧ char ∉ reserved then [char]
  else ['%', upperHexDigit (byte.toNat / 16), upperHexDigit (byte.toNat % 16)]

def deadLetter (dlqPrefix tenant : String) : String :=
  dlqPrefix ++ "." ++
    String.ofList ((tenant.toList.flatMap String.utf8EncodeChar).flatMap escapeByte)

def capturesTokens : List (List Char) → List (List Char) → Bool
  | [], subject => subject.isEmpty
  | want :: pattern, subject =>
      if want = ['>'] ∧ pattern = [] then !subject.isEmpty
      else
        match subject with
        | [] => false
        | token :: subject =>
            if want = ['*'] ∨ want = token then capturesTokens pattern subject else false

def captures (pattern subject : String) : Bool :=
  capturesTokens (pattern.toList.splitOn '.') (subject.toList.splitOn '.')

def coversEveryTenant (pattern dlqPrefix : String) : Bool :=
  captures pattern (dlqPrefix ++ ".*")

example : deadLetter "dlq" "a.b" = "dlq.a%2Eb" := by decide

end FusionPipeline.Subject
