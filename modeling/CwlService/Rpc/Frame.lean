import CwlService.Json.Read
import CwlService.Json.Write

/-! # Frames

A frame is lines of a header, an empty line and a body. The first line of the header says how
long the body is; one that says nothing about it makes the rest of the stream the body. -/
namespace CwlService.Rpc

inductive FrameFault where
  | ended
  | lineEnding
  | length (text : String)
  | lengthTwice
  | notText
  | notJson
  | enormous
  | hugeLength
  /-- The stream ended within the header, so that it never ends. -/
  | openHeader
  deriving DecidableEq, Repr

namespace FrameFault

def message : FrameFault → String
  | .lineEnding => "Line endings must be \\r\\n"
  | .length text => "Invalid Content-Length header: " ++ text
  | _ => ""

end FrameFault

/-! ## Lines -/

def splitLine : List UInt8 → List UInt8 × List UInt8
  | [] => ([], [])
  | b :: rest =>
    if b == 10 then ([b], rest)
    else
      let (line, after) := splitLine rest
      (b :: line, after)

def lineEnd : String := "\r\n"

def lengthField : String := "Content-Length: "

def typeField : String := "Content-Type: application/vscode-jsonrpc; charset=utf8"

/-- The length that a line of a header gives, if it gives one. -/
def contentLength? (line : String) : Except FrameFault (Option Int) :=
  let cs := line.toList
  if !lineEnd.toList.isSuffixOf cs then throw .lineEnding
  else if lengthField.toList.isPrefixOf cs then
    let value := cs.drop lengthField.length
    if Text.holds lengthField.toList value then throw .lengthTwice
    else
      let value := String.ofList (Text.strip value)
      match Number.integer? value with
      | some n => pure (some n)
      | none => throw (.length value)
  else pure none

/-! ## Reading -/

/-- The stream after the empty line that ends a header; `line` is the line before it. Every
line takes up a byte, so the length of the stream bounds their number. -/
def skipHeader (line : String) : Nat → List UInt8 → Except FrameFault Unit × List UInt8
  | 0, stream => (.error .openHeader, stream)
  | lines + 1, stream =>
    if line == lineEnd then (.ok (), stream)
    else
      match splitLine stream with
      | ([], rest) => (.error .openHeader, rest)
      | (bytes, rest) =>
        match Text.ofBytes? bytes with
        | none => (.error .notText, rest)
        | some next => skipHeader next lines rest

/-- The lengths that can be asked for: those of 63 bits and a sign. -/
def isLength (n : Int) : Bool := -0x8000000000000000 ≤ n && n < 0x8000000000000000

/-- The body of a frame and the stream after it. Without a length, or with one below zero,
the body is all that is left. -/
def splitBody (length : Option Int) (stream : List UInt8) : List UInt8 × List UInt8 :=
  match length with
  | some n => if n < 0 then (stream, []) else (stream.take n.toNat, stream.drop n.toNat)
  | none => (stream, [])

def bodyMessage (body : List UInt8) : Except FrameFault Node :=
  match Text.ofBytes? body with
  | none => throw .notText
  | some text =>
    match Json.read text with
    | .ok n => pure n
    | .error .malformed => throw .notJson
    | .error .enormous => throw .enormous

/-- The first message of a stream and the stream after it. What was looked at is taken, also
if it is no message. -/
def receive (stream : List UInt8) : Except FrameFault Node × List UInt8 :=
  match splitLine stream with
  | ([], rest) => (.error .ended, rest)
  | (bytes, rest) =>
    match Text.ofBytes? bytes with
    | none => (.error .notText, rest)
    | some line =>
      match contentLength? line with
      | .error f => (.error f, rest)
      | .ok length =>
        match skipHeader line (rest.length + 2) rest with
        | (.error f, rest) => (.error f, rest)
        | (.ok (), rest) =>
          if length.all isLength then
            let (body, rest) := splitBody length rest
            (bodyMessage body, rest)
          else (.error .hugeLength, rest)

/-! ## Writing -/

def frame (body : String) : String :=
  lengthField ++ toString body.length ++ lineEnd ++ typeField ++ lineEnd ++ lineEnd ++ body

end CwlService.Rpc
