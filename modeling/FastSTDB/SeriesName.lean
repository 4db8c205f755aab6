import Mathlib.Data.List.Basic
import FastSTDB.Types

/-
  Series names — the parser of names (`index/seriesparser.cc`)

  A series name is a metric followed by tags, `cpu host=a region=b`. The canonical
  form has the tags sorted by name, with one space before each. A text is the list
  of its bytes, a `Char` for each; pointers into a text are its suffixes.

  A backslash before a space makes the space a part of the metric or of the tag.
  The source remembers the position of the last backslash and compares it with the
  position before a space; here the character before is passed along.

  Correspondence (C++ ↔ Lean):
    `skip_space`, `copy_until`, `skip_tag`  ↔ `skipSpace`, `copyUntil`, `skipTag`
    the lambda `sort_pred`, `std::sort`     ↔ `sortPred`, `sortTags`
    `SeriesParser::to_canonical_form`       ↔ `toCanonicalForm`, `none` for `BadData`
    `keystr_begin`, `keystr_end`            ↔ the fields of `CanonicalName`

  `std::sort` leaves the order of tags with equal names open; `sortTags` keeps the
  order they had.
-/
namespace FastSTDB
open List

abbrev Text := List Char

def limitsMaxSname : Nat := 0x1000
def limitsMaxTags : Nat := 32

def escChar : Char := '\\'

/-! ## Scanning -/

def isSpace (c : Char) : Bool := c == ' ' || c == '\t'

def skipSpace (text : Text) : Text := text.dropWhile isSpace

/-- Copy up to the next `pattern` that has no backslash before it. -/
def copyFrom (pattern : Char) : Char → Text → Text × Text
  | _, [] => ([], [])
  | prev, c :: text =>
    if c = pattern ∧ prev ≠ escChar then ([], c :: text)
    else (c :: (copyFrom pattern c text).1, (copyFrom pattern c text).2)

/-- `copy_until`: what was copied, and where it stopped. The first character is copied
whatever it is. -/
def copyUntil (pattern : Char) : Text → Text × Text
  | [] => ([], [])
  | c :: text => (c :: (copyFrom pattern c text).1, (copyFrom pattern c text).2)

/-- The first loop of `skip_tag`: to the `=`, or to a space. -/
def scanTagName : Char → Text → Text
  | _, [] => []
  | prev, c :: text =>
    if c = '=' then c :: text
    else if c = ' ' ∧ prev ≠ escChar then c :: text
    else scanTagName c text

/-- The second loop of `skip_tag`: to a space. -/
def scanTagValue : Char → Text → Text
  | _, [] => []
  | prev, c :: text => if c = ' ' ∧ prev ≠ escChar then c :: text else scanTagValue c text

/-- `skip_tag`: the text behind the tag; `none` if `error` is set. -/
def skipTag (text : Text) : Option Text :=
  match scanTagName ' ' text with
  | '=' :: rest => if text.head? = some '=' then none else some (scanTagValue '=' rest)
  | _ => none

/-! ## Canonical form -/

/-- A character as the source compares it, a signed number. -/
def signedChar (c : Char) : Int := if c.toNat < 128 then c.toNat else c.toNat - 256

def sortPredFrom (lenl lenr : Nat) : Nat → Text → Text → Bool
  | it, l :: lhs, r :: rhs =>
    if it ≥ lenl ∨ it ≥ lenr then decide (it < lenl)
    else if l = '=' ∨ r = '=' then decide (l = '=' ∧ r ≠ '=')
    else if signedChar l < signedChar r then true
    else if signedChar r < signedChar l then false
    else sortPredFrom lenl lenr (it + 1) lhs rhs
  | it, _, _ => decide (it < lenl)

/-- `sort_pred`: two tags of one text, each with all the text behind it. -/
def sortPred (lhs rhs : Text) : Bool :=
  if rhs.length < lhs.length then sortPredFrom (lhs.length - rhs.length) rhs.length 0 lhs rhs
  else sortPredFrom lhs.length (rhs.length - lhs.length) 0 lhs rhs

def insertTag (tag : Text) : List Text → List Text
  | [] => [tag]
  | t :: tags => if sortPred t tag then t :: insertTag tag tags else tag :: t :: tags

/-- `std::sort` with `sort_pred`. -/
def sortTags (tags : List Text) : List Text := tags.foldr insertTag []

/-- The loop that finds the tags, at most `n` of them; `none` if one is ill-formed. -/
def tagStarts : Nat → Text → Option (List Text)
  | 0, _ => some []
  | n + 1, text =>
    if text = [] then some []
    else
      match skipTag text with
      | none => none
      | some rest => (tagStarts n (skipSpace rest)).map (text :: ·)

/-- What `to_canonical_form` writes: `keystr_begin` is the first tag. -/
structure CanonicalName where
  metric : Text
  tags : List Text
  deriving DecidableEq, Repr

/-- The tags, each with a space before it. -/
def tagText (tags : List Text) : Text := tags.flatMap (' ' :: ·)

def CanonicalName.text (name : CanonicalName) : Text := name.metric ++ tagText name.tags

/-- The tags of a canonical name, from the text behind the metric. -/
def canonicalTags (text : Text) : Option (List Text) :=
  -- at least one tag should be specified
  if skipSpace text = [] then none
  else
    (tagStarts limitsMaxTags (skipSpace text)).map fun tags =>
      (sortTags tags).map fun tag => (copyUntil ' ' tag).1

def toCanonicalForm (name : Text) : Option CanonicalName :=
  if limitsMaxSname < name.length then none
  else
    let metric := copyUntil ' ' (skipSpace name)
    (canonicalTags metric.2).map fun tags => ⟨metric.1, tags⟩

/-! ## Plain metrics -/

/-- A metric the parser takes as it is: no spaces, no tab at its begin and no backslash at its
end. -/
structure PlainMetric (metric : Text) : Prop where
  ne_nil : metric ≠ []
  no_space : ' ' ∉ metric
  no_tab : metric.head? ≠ some '\t'
  no_esc : metric.getLast? ≠ some escChar

theorem copyFrom_append (pattern : Char) : ∀ (prev : Char) (word rest : Text), pattern ∉ word →
      (prev :: word).getLast? ≠ some escChar →
      copyFrom pattern prev (word ++ pattern :: rest) = (word, pattern :: rest) := by
  intro prev word
  induction word generalizing prev with
  | nil =>
    intro rest _ hesc
    have hprev : prev ≠ escChar := by simpa using hesc
    rw [nil_append, copyFrom, if_pos ⟨rfl, hprev⟩]
  | cons c word ih =>
    intro rest hmem hesc
    have hc : ¬ (c = pattern ∧ prev ≠ escChar) := by
      rintro ⟨rfl, -⟩
      exact hmem mem_cons_self
    rw [cons_append, copyFrom, if_neg hc,
      ih c rest (fun h => hmem (mem_cons_of_mem _ h)) hesc]

variable {text : Text}

/-- The canonical form of a plain metric with tags keeps the metric; its tags depend on the text
behind it only. -/
theorem toCanonicalForm_plain {metric : Text} (hm : PlainMetric metric)
    (hlen : (metric ++ ' ' :: text).length ≤ limitsMaxSname) :
    toCanonicalForm (metric ++ ' ' :: text) =
      (canonicalTags (' ' :: text)).map fun tags => ⟨metric, tags⟩ := by
  obtain ⟨c, word, rfl⟩ := exists_cons_of_ne_nil hm.ne_nil
  have hspace : isSpace c = false := by
    have h1 : c ≠ ' ' := fun h => hm.no_space (by simp [h])
    have h2 : c ≠ '\t' := fun h => hm.no_tab (by simp [h])
    simp [isSpace, h1, h2]
  have hskip : skipSpace (c :: word ++ ' ' :: text) = c :: word ++ ' ' :: text := by
    rw [skipSpace, cons_append, dropWhile_cons, hspace]
    rfl
  have hcopy : copyUntil ' ' (c :: word ++ ' ' :: text) = (c :: word, ' ' :: text) := by
    rw [cons_append, copyUntil, copyFrom_append ' ' c word text
      (fun h => hm.no_space (mem_cons_of_mem _ h)) hm.no_esc]
  rw [toCanonicalForm, if_neg (not_lt.mpr hlen), hskip, hcopy]

theorem sortTags_ne_nil {tags : List Text} (h : tags ≠ []) : sortTags tags ≠ [] := by
  obtain ⟨t, tags, rfl⟩ := exists_cons_of_ne_nil h
  rw [sortTags, foldr_cons]
  cases hs : foldr insertTag [] tags with
  | nil => simp [insertTag]
  | cons u us =>
    rw [insertTag]
    split <;> simp

theorem canonicalTags_ne_nil {tags : List Text} (h : canonicalTags text = some tags) :
    tags ≠ [] := by
  rw [canonicalTags] at h
  split at h
  next => cases h
  next hne =>
    obtain ⟨starts, hstarts, rfl⟩ := Option.map_eq_some_iff.mp h
    -- the first tag is found, or the text is ill-formed
    have hnil : starts ≠ [] := by
      rw [limitsMaxTags, tagStarts, if_neg hne] at hstarts
      cases hskip : skipTag (skipSpace text) with
      | none => rw [hskip] at hstarts; cases hstarts
      | some rest =>
        rw [hskip] at hstarts
        obtain ⟨others, -, rfl⟩ := Option.map_eq_some_iff.mp hstarts
        simp
    simpa using sortTags_ne_nil hnil

theorem skipSpace_head {c : Char} (h : (skipSpace text).head? = some c) : isSpace c = false := by
  induction text with
  | nil => cases h
  | cons d text ih =>
    rw [skipSpace, dropWhile_cons] at h
    split at h
    next => exact ih h
    next hd =>
      cases h
      simpa using hd

theorem toCanonicalForm_shape {name : CanonicalName} (h : toCanonicalForm text = some name) :
    (∃ c metric, name.metric = c :: metric ∧ isSpace c = false) ∧ name.tags ≠ [] := by
  rw [toCanonicalForm] at h
  split at h
  next => cases h
  next =>
    obtain ⟨tags, htags, rfl⟩ := Option.map_eq_some_iff.mp h
    refine ⟨?_, canonicalTags_ne_nil htags⟩
    cases hskip : skipSpace text with
    | nil =>
      -- without a metric there are no tags either
      rw [hskip] at htags
      cases htags
    | cons c rest => exact ⟨c, _, rfl, skipSpace_head (by rw [hskip]; rfl)⟩

end FastSTDB
