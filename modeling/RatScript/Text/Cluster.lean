import RatScript.Text.Conjunct
import RatScript.Text.Extender
import RatScript.Text.Pictograph
import RatScript.Text.SpacingMark

/-!
Clusters: what a reader takes for one character, in one or more code points. Texts are cut by the
rules of Unicode for extended grapheme clusters, and the clusters of a text make up the text.
-/

namespace RatScript.Text

/-- What a character counts for in a cluster. -/
inductive ClusterClass where
  | carriageReturn
  | lineFeed
  | control
  | extender
  | joiner
  | spacingMark
  | prepended
  | leadingConsonant
  | vowel
  | trailingConsonant
  | openSyllable
  | closedSyllable
  | regionalLetter
  | pictograph
  | consonant
  | other
  deriving DecidableEq, Repr

/-- Controls, format characters that stand alone, and the line separators. -/
def standaloneRanges : List (Nat × Nat) := [
    (0x0, 0x1f), (0x7f, 0x9f), (0xad, 0xad), (0x61c, 0x61c), (0x180e, 0x180e), (0x200b, 0x200b),
    (0x200e, 0x200f), (0x2028, 0x202e), (0x2060, 0x206f), (0xfeff, 0xfeff), (0xfff0, 0xfffb),
    (0x13430, 0x1343f), (0x1bca0, 0x1bca3), (0x1d173, 0x1d17a), (0xe0000, 0xe001f),
    (0xe0080, 0xe00ff), (0xe01f0, 0xe0fff)]

/-- Signs that belong to the character after them. -/
def prependedRanges : List (Nat × Nat) := [
    (0x600, 0x605), (0x6dd, 0x6dd), (0x70f, 0x70f), (0x890, 0x891), (0x8e2, 0x8e2), (0xd4e, 0xd4e),
    (0x110bd, 0x110bd), (0x110cd, 0x110cd), (0x111c2, 0x111c3), (0x113d1, 0x113d1),
    (0x1193f, 0x1193f), (0x11941, 0x11941), (0x11a84, 0x11a89), (0x11d46, 0x11d46),
    (0x11f02, 0x11f02)]

def leadingConsonantRanges : List (Nat × Nat) := [(0x1100, 0x115f), (0xa960, 0xa97c)]

def vowelRanges : List (Nat × Nat) := [
    (0x1160, 0x11a7), (0xd7b0, 0xd7c6), (0x16d63, 0x16d63), (0x16d67, 0x16d6a)]

def trailingConsonantRanges : List (Nat × Nat) := [(0x11a8, 0x11ff), (0xd7cb, 0xd7fb)]

/-- Hangul syllables: 28 for each leading consonant and vowel, the first of them open. -/
def syllableRange : Nat × Nat := (0xac00, 0xd7a3)

def trailingChoices : Nat := 28

def regionalLetterRange : Nat × Nat := (0x1f1e6, 0x1f1ff)

/-- Skin tones, which extend pictographs. -/
def skinToneRange : Nat × Nat := (0x1f3fb, 0x1f3ff)

def isJoiner (c : Char) : Bool := c == '\u200d'

/-- The extender that keeps consonants apart. -/
def isNonJoiner (c : Char) : Bool := c == '\u200c'

def clusterClass (c : Char) : ClusterClass :=
  if c == '\r' then .carriageReturn
  else if c == '\n' then .lineFeed
  else if inRanges standaloneRanges c then .control
  else if c.toNat < 128 then .other
  else if isJoiner c then .joiner
  else if isExtender c || inRanges [skinToneRange] c then .extender
  else if isSpacingMark c then .spacingMark
  else if inRanges prependedRanges c then .prepended
  else if inRanges leadingConsonantRanges c then .leadingConsonant
  else if inRanges vowelRanges c then .vowel
  else if inRanges trailingConsonantRanges c then .trailingConsonant
  else if inRanges [syllableRange] c then
    if (c.toNat-syllableRange.1)%trailingChoices = 0 then .openSyllable else .closedSyllable
  else if inRanges [regionalLetterRange] c then .regionalLetter
  else if isPictograph c then .pictograph
  else if isConsonant c then .consonant
  else .other

/-- Whether a consonant would be bound to what stands before it, last first: a consonant, then
linkers, at least one, and extenders among them. -/
def endsLinked (before : List Char) : Bool :=
  let signs := before.takeWhile fun c =>
    isLinker c || (clusterClass c == .extender && !isNonJoiner c) || isJoiner c
  signs.any isLinker && (before.drop signs.length).head?.any isConsonant

/-- Whether a pictograph would be bound to what stands before a joiner, last first: a pictograph and
its extenders. -/
def endsPictured (before : List Char) : Bool :=
  (before.dropWhile (clusterClass · == .extender)).head?.any (clusterClass · == .pictograph)

/-- Whether the letters at the end, last first, leave one without its partner: regional letters go
in pairs. -/
def endsUnpaired (before : List Char) : Bool :=
  (before.takeWhile (clusterClass · == .regionalLetter)).length%2 = 1

/-- Whether a character goes on with the cluster that a character and those before it, last first,
have begun. -/
def joins (last : Char) (before : List Char) (c : Char) : Bool :=
  match clusterClass last, clusterClass c with
  | .carriageReturn, .lineFeed => true
  | .carriageReturn, _ | .lineFeed, _ | .control, _ => false
  | _, .carriageReturn | _, .lineFeed | _, .control => false
  | .leadingConsonant, .leadingConsonant | .leadingConsonant, .vowel
  | .leadingConsonant, .openSyllable | .leadingConsonant, .closedSyllable => true
  | .openSyllable, .vowel | .openSyllable, .trailingConsonant
  | .vowel, .vowel | .vowel, .trailingConsonant => true
  | .closedSyllable, .trailingConsonant | .trailingConsonant, .trailingConsonant => true
  | _, .extender | _, .joiner | _, .spacingMark | .prepended, _ => true
  | _, .consonant => endsLinked (last :: before)
  | .joiner, .pictograph => endsPictured before
  | .regionalLetter, .regionalLetter => endsUnpaired (last :: before)
  | _, _ => false

/-- The clusters of a text behind a begun one, last character first. -/
def clustersFrom (last : Char) (before : List Char) : List Char → List (List Char)
  | [] => [(last :: before).reverse]
  | c :: rest =>
    if joins last before c then clustersFrom c (last :: before) rest
    else (last :: before).reverse :: clustersFrom c [] rest

def clusters : List Char → List (List Char)
  | [] => []
  | c :: rest => clustersFrom c [] rest

theorem flatten_clustersFrom (last : Char) (before rest : List Char) :
    (clustersFrom last before rest).flatten = (last :: before).reverse ++ rest := by
  induction rest generalizing last before with
  | nil => simp [clustersFrom]
  | cons c rest ih =>
    unfold clustersFrom
    split <;> simp [ih]

/-- Nothing of a text is lost or moved. -/
theorem flatten_clusters (text : List Char) : (clusters text).flatten = text := by
  cases text with
  | nil => rfl
  | cons c rest => simp [clusters, flatten_clustersFrom]

end RatScript.Text
