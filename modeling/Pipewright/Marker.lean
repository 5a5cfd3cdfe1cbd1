import Pipewright.Decimal.Reader
import Pipewright.Text

/-!
# Markers

A marker stands in generated text for what a placeholder will give: `<@vg#`, the
decimal id, `#@>`. A scan from the left finds every marker; as only its first
character is a `<`, no two of them overlap. What is not a whole marker is plain
text.
-/

namespace Pipewright

namespace Marker

def opening : List Char := "<@vg#".toList

def closing : List Char := "#@>".toList

def idBound : Nat := Nat.pow 2 32

def text (id : Nat) : String :=
  String.ofList (opening ++ (toString id).toList ++ closing)

/-- A marker at the very start of a text: its id, its digits and what follows it. -/
def at? (cs : List Char) : Option (Nat × List Char × List Char) :=
  match after? opening cs with
  | none => none
  | some body =>
    let digits := body.takeWhile Char.isDigit
    match after? closing (body.dropWhile Char.isDigit) with
    | none => none
    | some rest =>
      if digits.isEmpty || idBound ≤ digitsValue digits then none else some (digitsValue digits, digits, rest)

theorem eq_append_of_at? {cs digits rest : List Char} {id : Nat} (h : at? cs = some (id, digits, rest)) :
    cs = opening ++ digits ++ closing ++ rest := by
  unfold at? at h
  cases ho : after? opening cs with
  | none => simp [ho] at h
  | some body =>
    cases hc : after? closing (body.dropWhile Char.isDigit) with
    | none => simp [ho, hc] at h
    | some tail =>
      simp only [ho, hc] at h
      split at h
      · cases h
      · obtain ⟨-, rfl, rfl⟩ := by simpa using h
        rw [after?_eq_some_iff] at ho hc
        rw [ho, List.append_assoc, List.append_assoc, ← hc, List.takeWhile_append_dropWhile]

theorem length_lt_of_at? {cs digits rest : List Char} {id : Nat} (h : at? cs = some (id, digits, rest)) :
    rest.length < cs.length := by
  have := congrArg List.length (eq_append_of_at? h)
  simp [opening, closing] at this
  omega

end Marker

inductive Segment where
  | plain (text : String)
  | marker (id : Nat) (raw : String)
deriving DecidableEq, Repr

namespace Segment

def ofRun (run : List Char) : List Segment :=
  if run.isEmpty then [] else [plain (String.ofList run.reverse)]

/-- The pieces of a text behind the open plain run `run`. -/
def scan (run : List Char) (cs : List Char) : List Segment :=
  match cs with
  | [] => ofRun run
  | c :: rest =>
    match h : Marker.at? (c :: rest) with
    | none => scan (c :: run) rest
    | some (id, digits, after) =>
      have := Marker.length_lt_of_at? h
      ofRun run ++ marker id (String.ofList (Marker.opening ++ digits ++ Marker.closing)) :: scan [] after
termination_by cs.length
decreasing_by
  · exact Nat.lt_succ_self rest.length
  · exact this

def id? : Segment → Option Nat
  | plain _ => none
  | marker id _ => some id

end Segment

def segments (text : String) : List Segment :=
  Segment.scan [] text.toList

def markerIds (text : String) : List Nat :=
  (segments text).filterMap Segment.id?

def containsMarker (text : String) : Bool :=
  !(markerIds text).isEmpty

end Pipewright
