import FieldMask.Json.Basic
import FieldMask.Json.Token

/-!
# JSON documents

Reading JSON text into a tree. A document is read from its tokens in one pass, with the arrays
and objects that are still open on a stack. Where the text stops being JSON, or ends too early,
the reader keeps what it has: the document then has arrays or objects that are not closed. This
lets a reader of schemas report the first fault of a text, be it in the JSON or in what it says.

Arrays and objects may be nested 127 deep.

* `Reading.ofText` reads a text, `Document.toJson?` is the tree of a document that is all closed.
* `Json.ofText?` is the tree of a text that is JSON.
-/

namespace FieldMask

/-- A JSON text as far as it could be read. -/
inductive Document where
  | null
  | bool (b : Bool)
  | number (n : Number)
  | string (s : String)
  | array (items : List Document) (closed : Bool)
  | object (members : List (String × Document)) (closed : Bool)

namespace Document

mutual

/-- The tree of a document, if everything is closed. -/
def toJson? : Document → Option Json
  | null => some .null
  | bool b => some (.bool b)
  | number n => some (.number n)
  | string s => some (.string s)
  | array items closed => if closed then (itemsToJson? items).map .array else none
  | object members closed => if closed then (membersToJson? members).map .object else none
termination_by structural d => d

/-- The trees of items, if everything is closed. -/
def itemsToJson? : List Document → Option (List Json)
  | [] => some []
  | item :: rest => do return (← item.toJson?) :: (← itemsToJson? rest)
termination_by structural ds => ds

/-- The trees of members, if everything is closed. -/
def membersToJson? : List (String × Document) → Option (List (String × Json))
  | [] => some []
  | (key, value) :: rest => do return (key, ← value.toJson?) :: (← membersToJson? rest)
termination_by structural ds => ds

end

end Document

/-- An array or object that is being read; what is in it is kept in reverse. -/
inductive Frame where
  | array (items : List Document)
  /-- `key` is the key whose value is being read. -/
  | object (members : List (String × Document)) (key : Option String)

/-- The document of a frame. -/
def Frame.toDocument (closed : Bool) : Frame → Document
  | array items => .array items.reverse closed
  | object members _ => .object members.reverse closed

/-- The frame with a value read in it. -/
def Frame.add (value : Document) : Frame → Frame
  | array items => array (value :: items)
  | object members (some key) => object ((key, value) :: members) none
  | object members none => object members none

/-- What may come next. -/
inductive Expected where
  | value
  /-- The first item of an array, or its end. -/
  | itemOrEnd
  | key
  /-- The first key of an object, or its end. -/
  | keyOrEnd
  | colon
  /-- A comma, or the end of the array or object. -/
  | commaOrEnd
  /-- Nothing: the document is complete. -/
  | nothing (document : Document)

/-- A text as far as it could be read, and whether nothing is left of it. -/
structure Reading where
  document : Option Document
  finished : Bool

namespace Reading

/-- The number of arrays and objects that may be open. -/
def maxDepth : Nat := 127

/-- Reading stops with frames open, the innermost first, around a value that is read. -/
def stop : List Frame → Option Document → Option Document
  | [], value => value
  | frame :: outer, value =>
    let frame := match value with
      | some d => frame.add d
      | none => frame
    stop outer (some (frame.toDocument false))

/-- The value that a token is by itself. -/
def scalar? : Token → Option Document
  | .null => some .null
  | .bool b => some (.bool b)
  | .number n => some (.number n)
  | .string s => some (.string s)
  | _ => none

/-- Where reading stands behind a value. -/
def behind (value : Document) : List Frame → List Frame × Expected
  | [] => ([], .nothing value)
  | frame :: outer => (frame.add value :: outer, .commaOrEnd)

/-- Where reading stands behind a token, with frames open and something expected. `none` if no
    JSON goes on like this. -/
def step? (frames : List Frame) (expected : Expected) (token : Token) :
    Option (List Frame × Expected) :=
  match expected, token, frames with
  | .itemOrEnd, .closeBracket, frame :: outer
  | .keyOrEnd, .closeBrace, frame :: outer
  | .commaOrEnd, .closeBracket, frame@(.array _) :: outer
  | .commaOrEnd, .closeBrace, frame@(.object ..) :: outer =>
    some (behind (frame.toDocument true) outer)
  | .commaOrEnd, .comma, .array _ :: _ => some (frames, .value)
  | .commaOrEnd, .comma, .object .. :: _ => some (frames, .key)
  | .key, .string key, .object members _ :: outer
  | .keyOrEnd, .string key, .object members _ :: outer =>
    some (.object members (some key) :: outer, .colon)
  | .colon, .colon, _ => some (frames, .value)
  | .value, .openBracket, _ | .itemOrEnd, .openBracket, _ =>
    if frames.length < maxDepth then some (.array [] :: frames, .itemOrEnd) else none
  | .value, .openBrace, _ | .itemOrEnd, .openBrace, _ =>
    if frames.length < maxDepth then some (.object [] none :: frames, .keyOrEnd) else none
  | .value, token, _ | .itemOrEnd, token, _ =>
    (scalar? token).map fun value => behind value frames
  | _, _, _ => none

/-- Read on, with frames open and something expected. -/
def run (frames : List Frame) : Expected → List Token → Reading
  -- The document is complete; only the end of the text may follow.
  | .nothing document, tokens => ⟨some document, tokens.isEmpty⟩
  | _, [] => ⟨stop frames none, false⟩
  | expected, token :: rest =>
    match step? frames expected token with
    | some (frames, expected) => run frames expected rest
    | none => ⟨stop frames none, false⟩
termination_by structural _ tokens => tokens

/-- Read a text. -/
def ofText (text : String) : Reading :=
  run [] .value (Token.scan .between text.toList)

end Reading

/-- The tree of a text that is JSON. -/
def Json.ofText? (text : String) : Option Json :=
  let reading := Reading.ofText text
  if reading.finished then reading.document >>= Document.toJson? else none

end FieldMask
