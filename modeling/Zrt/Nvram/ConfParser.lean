import Mathlib.Logic.Function.Basic

/-!
# Section parser of the nvram configuration

`get_parsed_records` reads a section text once, character by character, with a current and a next
state, the start and the length of the token being read and a buffer for the parameters of the
record being read. A string is the list of its bytes; `none` stands for a failed assertion or an
invalid memory access.
-/

namespace Zrt.Nvram

abbrev Text := List Char

/-- The string terminator. -/
def nul : Char := Char.ofNat 0

/-- `strchr(" \t\n", chr)`, which also finds the terminator of the set. -/
def isCharToStrip (c : Char) : Bool :=
  c == ' ' || c == '\t' || c == '\n' || c == nul

/-- The right-to-left loop of `strip_all`; it stops at index zero whatever stands there. -/
def stripEnd (str : Text) : Nat → Nat
  | 0 => 0
  | n + 1 => if isCharToStrip (str.getD (n + 1) nul) then stripEnd str n else n + 1

/-- Offset and length of the stripped text. The length is stored in sixteen bits before it is
compared with the full length. -/
def stripAll (str : Text) : Option (Nat × Nat) :=
  let first := (str.takeWhile isCharToStrip).length
  let last : Int := if str.length = 0 then -1 else stripEnd str (str.length - 1)
  let stripedLen := ((last - first + 1) % 65536).toNat
  if stripedLen ≤ str.length then some (first, stripedLen) else none

/-- Split at the first delimiter found in memory from the token on. A delimiter just behind the
token is accepted and leaves a value of length minus one, which the trimming rejects. -/
def extractKeyValue (src : Text) (srcLen : Nat) : Option (Option (Text × Text)) :=
  match (src.takeWhile fun c => c ≠ nul).findIdx? fun c => c = '=' with
  | none => some none
  | some keylen =>
      if srcLen < keylen then some none
      else if srcLen = keylen then none
      else
        (stripAll (src.take keylen)).bind fun k =>
          (stripAll ((src.drop (keylen + 1)).take (srcLen - keylen - 1))).map fun v =>
            some ((src.drop k.1).take k.2, (src.drop (keylen + 1 + v.1)).take v.2)

structure KeyEntry where
  key : Text
  optionalDefaultValue : Option Text
deriving DecidableEq

/-- The keys an observer registered: at most five, nonempty and distinct. -/
structure KeyList where
  keys : List KeyEntry
  count_le : keys.length ≤ 5
  nodup : (keys.map KeyEntry.key).Nodup
  key_ne_nil : ∀ e ∈ keys, e.key ≠ []

def keyFind (keyList : KeyList) (key : Text) : Option Nat :=
  keyList.keys.findIdx? fun e => e.key = key

/-- The values of a record by key index; `none` is an entry never written. -/
abbrev ParsedRecord := List (Option Text)

/-- The parameters read for the current record, their count and the records stored so far. -/
structure ParseState where
  tempKeysParsed : Nat → Option (Text × Text)
  parsedParamsCount : Nat
  records : List ParsedRecord

namespace ParseState

def start : ParseState := ⟨fun _ => none, 0, []⟩

/-- Save a parameter unless its key is unknown or was seen before. -/
def saveParam (keyList : KeyList) (p : ParseState) (key val : Text) : ParseState :=
  match keyFind keyList key with
  | none => p
  | some i =>
      if (p.tempKeysParsed i).isSome then p
      else { p with
        tempKeysParsed := Function.update p.tempKeysParsed i (some (key, val))
        parsedParamsCount := p.parsedParamsCount + 1 }

/-- What the result of `extract_key_value` does to the parameters. -/
def saveField (keyList : KeyList) (p : ParseState) : Option (Text × Text) → ParseState
  | none => p
  | some (key, val) => p.saveParam keyList key val

/-- Handle a token of length `len` that starts at the head of `mem`. -/
def parseToken (keyList : KeyList) (mem : Text) (len : Nat) (p : ParseState) : Option ParseState :=
  (stripAll (mem.take len)).bind fun t =>
    if 0 < t.2 then
      (extractKeyValue (mem.drop t.1) t.2).map (p.saveField keyList)
    else some p

/-- Assign the default values of the absent keys from index `i` on. -/
def fillDefaults (p : ParseState) : List KeyEntry → Nat → ParseState
  | [], _ => p
  | e :: es, i =>
      match e.optionalDefaultValue, p.tempKeysParsed i with
      | some d, none => fillDefaults { p with
          tempKeysParsed := Function.update p.tempKeysParsed i (some (e.key, d))
          parsedParamsCount := p.parsedParamsCount + 1 } es (i + 1)
      | _, _ => fillDefaults p es (i + 1)

/-- Copy `n` parameters from index `i` on into the record. An absent parameter has no key to look
up; an unknown key discards the record. -/
def getParsedRecord (keyList : KeyList) (p : ParseState) :
    Nat → Nat → ParsedRecord → Option (Option ParsedRecord)
  | 0, _, record => some (some record)
  | n + 1, i, record =>
      match p.tempKeysParsed i with
      | none => none
      | some (key, val) =>
          match keyFind keyList key with
          | none => some none
          | some keyIndex => getParsedRecord keyList p n (i + 1) (record.set keyIndex (some val))

/-- Close the current record: store it if every key has a value, then reset the parameters. -/
def handleParsedParams (keyList : KeyList) (p : ParseState) : Option ParseState :=
  if 0 < p.parsedParamsCount then
    let q := p.fillDefaults keyList.keys 0
    if keyList.keys.length = q.parsedParamsCount then
      (q.getParsedRecord keyList q.parsedParamsCount 0
        (List.replicate keyList.keys.length none)).map fun record =>
          match record with
          | some r => { start with records := p.records ++ [r] }
          | none => { start with records := p.records }
    else some { start with records := p.records }
  else some { start with records := p.records }

end ParseState

inductive ParsingStatus where
  | comment | processing | token
deriving DecidableEq

structure LexState where
  lexCursor : Int
  lexLength : Int
  st : ParsingStatus
  stNew : ParsingStatus
  newRecordFlag : Bool

namespace LexState

def start : LexState := ⟨0, 0, .processing, .processing, false⟩

/-- The first half of the loop body: the state the character at the cursor leads to. -/
def classify (s : LexState) (cursor : Nat) (c : Char) (last : Bool) : LexState :=
  if c = '#' then
    if s.st = .processing then { s with stNew := .comment, st := .token }
    else { s with st := .comment }
  else if (s.st ≠ .comment ∧ c = ',') ∨ c = '\n' then
    if s.st = .processing then
      if c = '\n' then { s with st := .token, newRecordFlag := true }
      else { s with st := .token, stNew := .processing }
    else { s with st := .processing, lexCursor := cursor + 1, lexLength := -1 }
  else if last then { s with lexLength := s.lexLength + 1, st := .token }
  else s

end LexState

/-- The section text in memory, with the byte before it and its terminator. -/
def memoryFrom (before : Char) (text : Text) (lexCursor : Int) : Text :=
  (before :: text ++ [nul]).drop (lexCursor + 1).toNat

/-- The second half of the loop body, `cursor` being already advanced. -/
def actOn (before : Char) (text : Text) (keyList : KeyList) (cursor : Nat) (s : LexState)
    (p : ParseState) : Option (LexState × ParseState) :=
  match s.st with
  | .processing => some ({ s with lexLength := s.lexLength + 1 }, p)
  | .comment => some ({ s with lexCursor := -1, lexLength := 0 }, p)
  | .token =>
      (p.parseToken keyList (memoryFrom before text s.lexCursor) s.lexLength.toNat).bind fun q =>
        (if s.newRecordFlag then q.handleParsedParams keyList else some q).map fun r =>
          ({ s with newRecordFlag := false, st := s.stNew, lexCursor := cursor, lexLength := 0 },
            r)

/-- The loop over the characters from `cursor` on. -/
def parseLoop (before : Char) (text : Text) (keyList : KeyList) :
    Text → Nat → LexState → ParseState → Option ParseState
  | [], _, _, p => some p
  | c :: rest, cursor, s, p =>
      (actOn before text keyList (cursor + 1)
        (s.classify cursor c (cursor + 1 = text.length)) p).bind fun (s', p') =>
          parseLoop before text keyList rest (cursor + 1) s' p'

/-- The loop body runs once even for an empty text, on its terminator. `before` is the byte in
front of the text, which a comment at the end of the text makes the parser read. -/
def getParsedRecords (before : Char) (text : Text) (keyList : KeyList) :
    Option (List ParsedRecord) :=
  ((parseLoop before text keyList (if text = [] then [nul] else text) 0 .start .start).bind
    (ParseState.handleParsedParams keyList)).map ParseState.records

end Zrt.Nvram
