-- SUMMARY: The chunker: normalization, sentence and word packing with overlap, and Markdown sections.
import Supermemory.Text

/-!
# Chunking

Extracted text is normalized, classified as Markdown or plain text, and split into
chunks of at most `limit` UTF-16 code units. Plain text is packed sentence by
sentence, a sentence that is too long is packed word by word, and a word that is
too long is cut by width. A full chunk hands its last units over to the next one
as overlap, and a short chunk is merged into the one before it when both fit.
-/

namespace Chunking

/-- Default chunk limit, measured in UTF-16 code units. -/
def defaultChunkSize : Nat := 1075

/-- Largest accepted custom chunk limit, measured in UTF-16 code units. -/
def maxChunkSize : Nat := 28672

def overlap : Nat := 200

def shortChunk : Nat := 322

/-- Invalid chunk-size configuration. -/
inductive ChunkingError where
  | tooSmall
  | tooLarge
  deriving DecidableEq, Repr

/-- Removes code points discarded by the extraction-to-chunking boundary. -/
def normalizeExtractedText (text : Text) : Text :=
  text.filter fun c => c ≠ '\x00' ∧ c ≠ '\ufffd'

/-- The limit a requested size stands for. -/
def chunkLimit (requestedSize : Option Int) : Except ChunkingError Nat :=
  match requestedSize with
  | none => .ok defaultChunkSize
  | some size =>
    if size = -1 ∨ size = 0 then .ok defaultChunkSize
    else if size < -1 then .error .tooSmall
    else if maxChunkSize < size.toNat then .error .tooLarge
    else .ok size.toNat

-- ---------------------------------------------------------------------------
-- Line classification
-- ---------------------------------------------------------------------------

def isFence (line : Text) : Bool := ['`', '`', '`'].isPrefixOf line

def isHeading (line : Text) : Bool :=
  let hashes := (line.takeWhile (· = '#')).length
  (1 ≤ hashes && hashes ≤ 6) && getElem? line hashes = some ' '

def isUnorderedItem (line : Text) : Bool :=
  match line with
  | marker :: ' ' :: _ => marker = '-' || marker = '*' || marker = '+'
  | _ => false

def isOrderedItem (line : Text) : Bool :=
  let digits := (line.takeWhile Char.isDigit).length
  0 < digits && ['.', ' '].isPrefixOf (line.drop digits)

/-- The score of one line outside a fence. -/
def lineScore (line : Text) : Nat :=
  (if isHeading line then 2 else 0) +
  (if isUnorderedItem line || isOrderedItem line then 1 else 0) +
  (if Text.contains line [']', '('] ∧ '[' ∈ line then 1 else 0) +
  (if ['>', ' '].isPrefixOf line || (line.head? = some '|' && line.getLast? = some '|') then 1
    else 0)

/-- One turn of the scoring loop, over the score and whether a fence is open. -/
def scoreLine : Nat × Bool → Text → Nat × Bool
  | (score, fenced), line =>
    if isFence line then (if fenced then score else score + 2, !fenced)
    else if fenced then (score, fenced)
    else (score + lineScore line, fenced)

def looksLikeMarkdown (text : Text) : Bool :=
  3 ≤ (((Text.lines text).take 100).foldl scoreLine (0, false)).1

-- ---------------------------------------------------------------------------
-- Building blocks
-- ---------------------------------------------------------------------------

def pushTrimmed (target : List Text) (value : Text) : List Text :=
  if Text.trim value = [] then target else target ++ [Text.trim value]

/-- Cuts a text by width alone, keeping surrogate pairs together. -/
def fixedWidthLoop (limit : Nat) : Text → List Text → Text → List Text
  | [], chunks, pending => pushTrimmed chunks pending
  | c :: rest, chunks, pending =>
    if pending ≠ [] ∧ limit < Text.utf16Len pending + Text.lenUtf16 c then
      fixedWidthLoop limit rest (pushTrimmed chunks pending) [c]
    else
      fixedWidthLoop limit rest chunks (pending ++ [c])

def fixedWidth (text : Text) (limit : Nat) : List Text := fixedWidthLoop limit text [] []

/-- A sentence ends at `.`, `!` or `?` before white space or at the end of the text. -/
def splitSentencesLoop : Text → List Text → Text → List Text
  | [], result, current => if current = [] then result else pushTrimmed result current
  | c :: rest, result, current =>
    if (c = '.' ∨ c = '!' ∨ c = '?') ∧ rest.head?.all Text.isWhitespace then
      splitSentencesLoop rest (pushTrimmed result (current ++ [c])) []
    else
      splitSentencesLoop rest result (current ++ [c])

def splitSentences (text : Text) : List Text := splitSentencesLoop text [] []

def joinedLen (units : List Text) (separator : Text) : Nat :=
  (units.map Text.utf16Len).sum + (units.length - 1) * Text.utf16Len separator

/-- Length of the pending units with one more unit joined to them. -/
def candidateLen (pending : List Text) (separator unit : Text) : Nat :=
  joinedLen pending separator + (if pending = [] then 0 else 1) * Text.utf16Len separator +
    Text.utf16Len unit

/-- Whether a finished chunk is merged into the chunk before it. -/
def mergeable (previous separator chunk : Text) (limit : Nat) : Prop :=
  Text.utf16Len chunk < shortChunk ∧
    Text.utf16Len previous + Text.utf16Len separator + Text.utf16Len chunk ≤ limit

instance : Decidable (mergeable previous separator chunk limit) :=
  inferInstanceAs (Decidable (_ ∧ _))

/-- Closes the pending units into a chunk. The caller's `pending` is empty afterwards. -/
def flushUnits (chunks pending : List Text) (separator : Text) (limit : Nat) : List Text :=
  if pending = [] then chunks
  else
    let chunk := Text.trim (Text.join separator pending)
    let pushed := if chunk = [] then chunks else chunks ++ [chunk]
    match chunks.getLast? with
    | some previous =>
      if mergeable previous separator chunk limit then
        chunks.dropLast ++ [previous ++ separator ++ chunk]
      else pushed
    | none => pushed

def overlapBudget (limit : Nat) : Nat := min overlap (limit / 2)

/-- Drops leading units until the rest fits the overlap budget. -/
def retainOverlap (pending : List Text) (separator : Text) (limit : Nat) : List Text :=
  match pending with
  | [] => []
  | unit :: rest =>
    if overlapBudget limit < joinedLen (unit :: rest) separator then
      retainOverlap rest separator limit
    else unit :: rest

/-- The overlap kept before a unit that does not fit the pending ones. -/
def carryOver (pending : List Text) (separator unit : Text) (limit : Nat) : List Text :=
  let kept := retainOverlap pending separator limit
  if limit < candidateLen kept separator unit then [] else kept

/-- Bound on the recursion over units: it drops both along the list and into the words of a unit. -/
def unitsSize (units : List Text) : Nat := (units.map fun u => 2 * u.length + 1).sum

theorem unitsSize_splitWhitespace {unit : Text} {rest : List Text}
    (h : 1 < (Text.splitWhitespace unit).length) :
    unitsSize (Text.splitWhitespace unit) < unitsSize (unit :: rest) := by
  have hwords := Text.splitWhitespace_size unit
  have hsum : ∀ words : List Text,
      unitsSize words + words.length = 2 * (words.map (·.length + 1)).sum := by
    intro words
    induction words with
    | nil => rfl
    | cons w words ih => simp only [unitsSize, List.map_cons, List.sum_cons, List.length_cons] at ih ⊢; omega
  have := hsum (Text.splitWhitespace unit)
  simp only [unitsSize, List.map_cons, List.sum_cons] at this ⊢
  omega

/-- The packing loop of `chunk_units`, over the chunks so far and the pending units. -/
def chunkUnitsLoop (separator : Text) (limit : Nat) :
    List Text → List Text → List Text → List Text
  | [], chunks, pending => flushUnits chunks pending separator limit
  | unit :: rest, chunks, pending =>
    if Text.trim unit = [] then chunkUnitsLoop separator limit rest chunks pending
    else if limit < Text.utf16Len unit then
      let chunks := flushUnits chunks pending separator limit
      let pieces :=
        if _h : (Text.splitWhitespace unit).length ≤ 1 then fixedWidth unit limit
        else chunkUnitsLoop [' '] limit (Text.splitWhitespace unit) [] []
      chunkUnitsLoop separator limit rest (chunks ++ pieces) []
    else if limit < candidateLen pending separator unit then
      chunkUnitsLoop separator limit rest (flushUnits chunks pending separator limit)
        (carryOver pending separator unit limit ++ [unit])
    else
      chunkUnitsLoop separator limit rest chunks (pending ++ [unit])
termination_by units => unitsSize units
decreasing_by
  · simp [unitsSize]
  · exact unitsSize_splitWhitespace (by omega)
  · simp [unitsSize]
  · simp [unitsSize]
  · simp [unitsSize]

def chunkUnits (units : List Text) (separator : Text) (limit : Nat) : List Text :=
  chunkUnitsLoop separator limit units [] []

def chunkPlain (text : Text) (limit : Nat) : List Text :=
  chunkUnits (splitSentences text) [' '] limit

-- ---------------------------------------------------------------------------
-- Markdown
-- ---------------------------------------------------------------------------

/-- One line of the section loop, over the sections so far, the open section and the fence. -/
def markdownSectionsLoop : List Text → List Text → List Text → Bool → List Text
  | [], sections, current, _ =>
    if current = [] then sections else pushTrimmed sections (Text.join ['\n'] current)
  | line :: rest, sections, current, fenced =>
    if isFence line then markdownSectionsLoop rest sections (current ++ [line]) (!fenced)
    else if !fenced && isHeading line then
      let sections :=
        if current = [] then sections else pushTrimmed sections (Text.join ['\n'] current)
      markdownSectionsLoop rest sections [line] fenced
    else markdownSectionsLoop rest sections (current ++ [line]) fenced

def markdownSections (text : Text) : List Text :=
  markdownSectionsLoop (text.splitOn '\n') [] [] false

/-- The first line of a section when it is a heading. -/
def sectionHeading (sect : Text) : Option Text := (Text.lines sect).head?.filter isHeading

/-- Repeats the heading in front of a later piece of its section when it still fits. -/
def withHeading (heading : Text) (limit : Nat) (chunk : Text) : Text :=
  let candidate := heading ++ ['\n', '\n'] ++ chunk
  if Text.utf16Len candidate ≤ limit ∧ ¬ heading.isPrefixOf chunk then candidate else chunk

/-- The pieces of a section that does not fit one chunk. -/
def splitSection (sect : Text) (limit : Nat) : List Text :=
  match chunkPlain sect limit, sectionHeading sect with
  | first :: later, some heading => first :: later.map (withHeading heading limit)
  | split, _ => split

def chunkMarkdownLoop (limit : Nat) : List Text → List Text → Text → List Text
  | [], chunks, pending => pushTrimmed chunks pending
  | sect :: rest, chunks, pending =>
    if limit < Text.utf16Len sect then
      chunkMarkdownLoop limit rest (pushTrimmed chunks pending ++ splitSection sect limit) []
    else if pending = [] then chunkMarkdownLoop limit rest chunks sect
    else if limit < Text.utf16Len pending + (2 + Text.utf16Len sect) then
      chunkMarkdownLoop limit rest (pushTrimmed chunks pending) sect
    else
      chunkMarkdownLoop limit rest chunks (pending ++ ['\n', '\n'] ++ sect)

def chunkMarkdown (text : Text) (limit : Nat) : List Text :=
  match markdownSections text with
  | [] => [text]
  | sections => chunkMarkdownLoop limit sections [] []

-- ---------------------------------------------------------------------------
-- Entry point
-- ---------------------------------------------------------------------------

/-- Splits extracted text. -/
def chunkText (text : Text) (requestedSize : Option Int) : Except ChunkingError (List Text) := do
  let limit ← chunkLimit requestedSize
  let normalized := normalizeExtractedText text
  if Text.trim normalized = [] then return []
  if looksLikeMarkdown normalized then return chunkMarkdown normalized limit
  else return chunkPlain normalized limit

end Chunking
