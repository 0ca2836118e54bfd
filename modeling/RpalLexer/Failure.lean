import RpalLexer.Text.Quoted

/-!
# Failures of the surroundings

What a stream, a file or a name look-up can report. The operating system's failures and bytes that
are no text are the two families that a reader may treat as the end of its input; every other
failure carries a category and a message.
-/
namespace RpalLexer

inductive SystemReason where
  | unspecified
  | notFound
  | noPermission
  | isDirectory
  | notDirectory
  | alreadyExists
  | wouldBlock
  | noChild
  | brokenPipe
  | connectionAborted
  | connectionRefused
  | connectionReset
  | interrupted
  | noProcess
  | timedOut
  | nameTooLong
  deriving DecidableEq

def SystemReason.ofCode (code : Int) : SystemReason :=
  if code = 2 then .notFound
  else if code = 1 ∨ code = 13 then .noPermission
  else if code = 21 then .isDirectory
  else if code = 20 then .notDirectory
  else if code = 17 then .alreadyExists
  else if code = 11 ∨ code = 114 ∨ code = 115 then .wouldBlock
  else if code = 10 then .noChild
  else if code = 32 ∨ code = 108 then .brokenPipe
  else if code = 103 then .connectionAborted
  else if code = 111 then .connectionRefused
  else if code = 104 then .connectionReset
  else if code = 4 then .interrupted
  else if code = 3 then .noProcess
  else if code = 110 then .timedOut
  else if code = 36 then .nameTooLong
  else .unspecified

def SystemReason.described : SystemReason → Int × String
  | .unspecified => (5, "Input/output error")
  | .notFound => (2, "No such file or directory")
  | .noPermission => (13, "Permission denied")
  | .isDirectory => (21, "Is a directory")
  | .notDirectory => (20, "Not a directory")
  | .alreadyExists => (17, "File exists")
  | .wouldBlock => (11, "Resource temporarily unavailable")
  | .noChild => (10, "No child processes")
  | .brokenPipe => (32, "Broken pipe")
  | .connectionAborted => (103, "Software caused connection abort")
  | .connectionRefused => (111, "Connection refused")
  | .connectionReset => (104, "Connection reset by peer")
  | .interrupted => (4, "Interrupted system call")
  | .noProcess => (3, "No such process")
  | .timedOut => (110, "Connection timed out")
  | .nameTooLong => (36, "File name too long")

theorem SystemReason.ofCode_described (r : SystemReason) : ofCode r.described.1 = r := by
  cases r <;> rfl

inductive SystemDetail where
  | bare (message : String)
  | numbered (code : Int) (text : String) (file : Option String)
  deriving DecidableEq

def SystemDetail.message : SystemDetail → String
  | .bare message => message
  | .numbered code text none => "[Errno " ++ toString code ++ "] " ++ text
  | .numbered code text (some file) =>
    "[Errno " ++ toString code ++ "] " ++ text ++ ": " ++ Text.quoted file

structure SystemFailure where
  reason : SystemReason
  detail : SystemDetail
  deriving DecidableEq

inductive DecodeReason where
  | invalidStart
  | invalidContinuation
  | unexpectedEnd
  | notAscii
  | truncated
  | loneSurrogate
  | brokenPair
  | stated (text : String)
  deriving DecidableEq

def DecodeReason.text : DecodeReason → String
  | .invalidStart => "invalid start byte"
  | .invalidContinuation => "invalid continuation byte"
  | .unexpectedEnd => "unexpected end of data"
  | .notAscii => "ordinal not in range(128)"
  | .truncated => "truncated data"
  | .loneSurrogate => "illegal encoding"
  | .brokenPair => "illegal UTF-16 surrogate"
  | .stated text => text

/-- The bytes from `start` up to `stop` are no text under the codec. A stated failure may name
positions that the data does not have. -/
structure DecodeFailure where
  codec : String
  data : List UInt8
  start : Int
  stop : Int
  reason : DecodeReason
  deriving DecidableEq

namespace DecodeFailure

def byte? (f : DecodeFailure) : Option UInt8 :=
  if f.stop ≠ f.start + 1 then none
  else if f.start < 0 then some 0xff
  else f.data[f.start.toNat]?

def message (f : DecodeFailure) : String :=
  let place :=
    match f.byte? with
    | some b =>
      "byte 0x" ++ String.ofList (Text.hexDigits 2 b.toNat) ++ " in position " ++ toString f.start
    | none => "bytes in position " ++ toString f.start ++ "-" ++ toString (f.stop - 1)
  "'" ++ f.codec ++ "' codec can't decode " ++ place ++ ": " ++ f.reason.text

end DecodeFailure

inductive Category where
  | badValue
  | wrongType
  | badText
  | unknownName
  | missingKey
  | badIndex
  | badParameter
  | badLexing
  | runtime
  | unspecified
  deriving DecidableEq

inductive Failure where
  | system (failure : SystemFailure)
  | undecodable (failure : DecodeFailure)
  | plain (category : Category) (message : String)
  deriving DecidableEq

namespace Failure

def message : Failure → String
  | .system f => f.detail.message
  | .undecodable f => f.message
  | .plain _ message => message

/-- The failures of a read that the read-error policy is about. -/
def isReadError : Failure → Bool
  | .system _ => true
  | .undecodable _ => true
  | .plain _ _ => false

def opening (reason : SystemReason) (path : String) : Failure :=
  .system ⟨reason, .numbered reason.described.1 reason.described.2 (some path)⟩

def missingKey (key : String) : Failure := .plain .missingKey (Text.quoted key)

def notAmong (choices value : String) : Failure :=
  .plain .badValue (Text.quoted value ++ " is not a valid " ++ choices)

end Failure
end RpalLexer
