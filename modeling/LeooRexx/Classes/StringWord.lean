import LeooRexx.Classes.RawString
import LeooRexx.Classes.StringArguments
import LeooRexx.Foundation.Occurrences
import LeooRexx.Foundation.Words
import LeooRexx.Instructions.ParseTarget

/-!
# Word functions

The methods of the string class that see a string as words between blanks.  All of them
drive `NextWord`, which advances a pointer to the next word, a pointer behind it and the
length of what follows.  Pointers are kept as offsets into the string.
-/

namespace LeooRexx

namespace StringWord

open RexxTarget (isBlank)
open StringArguments

/-- The loop of `SkipBlanks` and `SkipNonBlanks`: the pointer and the length left. -/
def skip (p : UInt8 → Bool) (data : List UInt8) : ℕ → ℕ → ℕ × ℕ
  | scan, 0 => (scan, 0)
  | scan, length + 1 =>
      if p (data.getD scan 0) then skip p data (scan + 1) length else (scan, length + 1)

def skipBlanks : List UInt8 → ℕ → ℕ → ℕ × ℕ := skip isBlank

def skipNonBlanks : List UInt8 → ℕ → ℕ → ℕ × ℕ := skip fun c => !isBlank c

/-- The loop of `WordCount`, for as many words as there is fuel. -/
def wordCountLoop (data : List UInt8) : ℕ → ℕ → ℕ → ℕ → Option ℕ
  | 0, _, _, _ => none
  | fuel + 1, string, length, count =>
      if length ≠ 0 then
        let count := count + 1
        let (string, length) := skipNonBlanks data string length
        if length = 0 then some count
        else
          let (string, length) := skipBlanks data string length
          wordCountLoop data fuel string length count
      else some count

def wordCount (data : List UInt8) : Option ℕ :=
  if data.length ≠ 0 then
    let (string, length) := skipBlanks data 0 data.length
    wordCountLoop data (data.length + 1) string length 0
  else some 0

/-- `Word`, `NextSite`, `Length` and `WordLength` of a method. -/
structure Cursor where
  word : ℕ
  nextSite : ℕ
  length : ℕ
  wordLength : ℕ
  deriving DecidableEq

def nextWord (data : List UInt8) (c : Cursor) : Cursor :=
  if c.length ≠ 0 then
    let (word, length) := skipBlanks data c.word c.length
    if length ≠ 0 then
      let (nextSite, rest) := skipNonBlanks data word length
      ⟨word, nextSite, rest, length - rest⟩
    else ⟨word, c.nextSite, length, 0⟩
  else { c with wordLength := 0 }

/-- The first word.  `NextSite` is not set yet; it is read behind a word only. -/
def firstWord (data : List UInt8) : Cursor := nextWord data ⟨0, 0, data.length, 0⟩

def Cursor.step (data : List UInt8) (c : Cursor) : Cursor :=
  nextWord data { c with word := c.nextSite }

/-- `while (--WordPos && WordLength)`: what is left of the count, and the cursor. -/
def seek (data : List UInt8) : ℕ → Cursor → ℕ × Cursor
  | 0, c => (0, c)
  | wordPos + 1, c =>
      if wordPos ≠ 0 ∧ c.wordLength ≠ 0 then seek data wordPos (c.step data) else (wordPos, c)

def words (this : List UInt8) : Option ℕ := wordCount this

def delWord (this : List UInt8) (position : ℤ) (plength : Option ℤ) :
    Except StringArgumentError Written := do
  let wordPos ← getPosition position
  let count ← optionalLength plength maxWholeNumber
  if this.length = 0 then return ⟨0, []⟩
  else if count = 0 then return ⟨this.length, this⟩
  else
    let (wordPos, c) := seek this wordPos (firstWord this)
    if wordPos ≠ 0 then return ⟨this.length, this⟩
    else
      let frontLength := c.word
      let (_, c) := seek this count c
      let (nextSite, length) :=
        if c.length ≠ 0 then skipBlanks this c.nextSite c.length else (c.nextSite, c.length)
      let current := if frontLength ≠ 0 then this.take frontLength else []
      let current :=
        if length ≠ 0 then current ++ (this.drop nextSite).take length else current
      return ⟨frontLength + length, current⟩

def spaceCount (data : List UInt8) : ℕ → Cursor → ℕ × ℕ → Option (ℕ × ℕ)
  | 0, _, _ => none
  | fuel + 1, c, (count, wordSize) =>
      if c.wordLength ≠ 0 then
        spaceCount data fuel (c.step data) (count + 1, wordSize + c.wordLength)
      else some (count, wordSize)

/-- The second loop of `space`, with what is written. -/
def spaceCopy (data : List UInt8) (spaces : ℕ) (padChar : UInt8) :
    ℕ → Cursor → List UInt8 → List UInt8
  | 0, c, current => current ++ (data.drop c.word).take c.wordLength
  | count + 1, c, current =>
      let current := current ++ (data.drop c.word).take c.wordLength
      let current :=
        if spaces ≠ 0 then current ++ List.replicate spaces padChar else current
      spaceCopy data spaces padChar count (c.step data) current

/-- `none` within when the words cannot be counted. -/
def space (this : List UInt8) (spaceCountArg : Option ℤ) (pad : Option (List UInt8)) :
    Except StringArgumentError (Option Written) := do
  let spaces ← optionalLength spaceCountArg 1
  let padChar ← getPad pad 32
  return (spaceCount this (this.length + 1) (firstWord this) (0, 0)).map
    fun (count, wordSize) =>
      if count = 0 then ⟨0, []⟩
      else
        let count := count - 1
        ⟨wordSize + count * spaces, spaceCopy this spaces padChar count (firstWord this) []⟩

/-- `while (Count-- && WordLength)` of `subWord`: the cursor and `WordEnd`. -/
def subWordLoop (data : List UInt8) : ℕ → Cursor → ℕ → Cursor × ℕ
  | 0, c, wordEnd => (c, wordEnd)
  | count + 1, c, wordEnd =>
      if c.wordLength ≠ 0 then subWordLoop data count (c.step data) (c.word + c.wordLength)
      else (c, wordEnd)

def subWord (this : List UInt8) (position : ℤ) (plength : Option ℤ) :
    Except StringArgumentError (List UInt8) := do
  let wordPos ← getPosition position
  let count ← optionalLength plength maxWholeNumber
  if this.length = 0 ∨ count = 0 then return []
  else
    let (wordPos, c) := seek this wordPos (firstWord this)
    if wordPos ≠ 0 then return []
    else
      let wordStart := c.word
      let (_, wordEnd) := subWordLoop this count c c.word
      return (this.drop wordStart).take (wordEnd - wordStart)

def word (this : List UInt8) (position : ℤ) : Except StringArgumentError (List UInt8) := do
  let wordPos ← getPosition position
  if this.length = 0 then return []
  else
    let (_, c) := seek this wordPos (firstWord this)
    if c.wordLength ≠ 0 then return (this.drop c.word).take c.wordLength else return []

def wordIndex (this : List UInt8) (position : ℤ) : Except StringArgumentError ℕ := do
  let wordPos ← getPosition position
  let (_, c) := seek this wordPos (firstWord this)
  return if c.wordLength = 0 then 0 else c.word + 1

def wordLength (this : List UInt8) (position : ℤ) : Except StringArgumentError ℕ := do
  let wordPos ← getPosition position
  let (_, c) := seek this wordPos (firstWord this)
  return c.wordLength

/-- The loop of `wordPos` that skips over the words before the starting one. -/
def skipWords (data : List UInt8) : ℕ → Cursor → Cursor
  | 0, c => c
  | i + 1, c => if c.wordLength ≠ 0 then skipWords data i (c.step data) else c

def samePhrase (this phrase : List UInt8) : ℕ → Cursor → Cursor → Bool
  | 0, _, _ => true
  | i + 1, haystack, needle =>
      if haystack.wordLength ≠ needle.wordLength then false
      else if (phrase.drop needle.word).take needle.wordLength ≠
          (this.drop haystack.word).take needle.wordLength then false
      else samePhrase this phrase i (haystack.step this) (needle.step phrase)

/-- The searches of `wordPos` from the given word on. -/
def wordPosLoop (this phrase : List UInt8) (needleWords : ℕ) (needle : Cursor) :
    ℕ → Cursor → ℕ → ℕ
  | 0, _, _ => 0
  | searchCount + 1, haystack, count =>
      if samePhrase this phrase needleWords haystack needle then count
      else wordPosLoop this phrase needleWords needle searchCount (haystack.step this) (count + 1)

/-- `none` within when the words cannot be counted. -/
def wordPos (this phrase : List UInt8) (pstart : Option ℤ) :
    Except StringArgumentError (Option ℕ) := do
  let count ← optionalPosition pstart 1
  return do
    let needleWords ← wordCount phrase
    let haystackWords ← wordCount this
    -- where the difference wraps, the last test holds
    if needleWords > haystackWords - count + 1 ∨ needleWords = 0 ∨ count > haystackWords then
      return 0
    else
      let haystack := skipWords this (count - 1) (firstWord this)
      let searchCount := haystackWords + 2 - needleWords - count
      let needle := firstWord phrase
      return wordPosLoop this phrase needleWords needle searchCount haystack count

end StringWord

end LeooRexx
