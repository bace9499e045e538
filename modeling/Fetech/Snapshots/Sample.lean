import Fetech.Snapshots.Partition

/-! A platform that keeps its laws.

Documents are written as JSON, times of the first day as Python writes them, and the hash
tells the snapshots apart that one page has in the first ten thousand seconds. On it the
page can be stored second by second (`store_storeAt`). -/
namespace Fetech.Snapshots
open Lib Lib.Except Storage

/-! ### Hashes and times -/

/-- Hexadecimal digits, the lowest first. -/
def hex64 (n : Nat) : String := String.ofList ((List.range 64).map fun k => Json.hexDigit (n / 16 ^ k % 16))

theorem isDigest_hex64 (n : Nat) : isDigest (hex64 n) = true := by
  have hdigit : ∀ m, m < 16 → ("0123456789abcdef".toList.contains (Json.hexDigit m)) = true := by decide
  rw [isDigest, hex64, String.toList_ofList, List.length_map, List.length_range, Bool.and_eq_true, List.all_eq_true]
  refine ⟨rfl, fun ch hch => ?_⟩
  obtain ⟨k, -, rfl⟩ := List.mem_map.mp hch
  exact hdigit _ (Nat.mod_lt _ (by decide))

theorem hex64_inj {m n : Nat} (hm : m < 65536) (hn : n < 65536) (h : hex64 m = hex64 n) : m = n := by
  have hdigits := List.map_inj_left.mp (String.ofList_inj.mp h)
  have hvalue : ∀ k < 64, m / 16 ^ k % 16 = n / 16 ^ k % 16 := by
    intro k hk
    have hdigit := congrArg Json.hexValue (hdigits k (List.mem_range.mpr hk))
    rwa [Json.hexValue_hexDigit (Nat.mod_lt _ (by decide)), Json.hexValue_hexDigit (Nat.mod_lt _ (by decide))] at hdigit
  have h0 := hvalue 0 (by decide)
  have h1 := hvalue 1 (by decide)
  have h2 := hvalue 2 (by decide)
  have h3 := hvalue 3 (by decide)
  omega

def twoDigits (n : Nat) : List Char := [Json.hexDigit (n / 10), Json.hexDigit (n % 10)]

/-- Whole seconds of the first day as Python writes them, other times by a number. -/
def sampleIsoformat (t : Int) : String :=
  let seconds := (t / 1000000).toNat
  if 0 ≤ t ∧ t % 1000000 = 0 ∧ seconds < 86400 then
    String.ofList ("1970-01-01T".toList ++ (twoDigits (seconds / 3600) ++ ':' :: twoDigits (seconds / 60 % 60) ++
      ':' :: twoDigits (seconds % 60) ++ "+00:00".toList))
  else String.ofList ('t' :: (toString (t - minTime).toNat).toList)

def ofTwoDigits (a b : Char) : Int := Json.hexValue a * 10 + Json.hexValue b

def sampleFromisoformat (s : String) : Option Moment :=
  match s.toList with
  | 't' :: rest => some (.aware (Nat.ofDigitChars 10 rest 0 + minTime))
  | _ :: _ :: _ :: _ :: _ :: _ :: _ :: _ :: _ :: _ :: _ :: a :: b :: _ :: c :: d :: _ :: e :: f :: _ =>
    some (.aware ((ofTwoDigits a b * 3600 + ofTwoDigits c d * 60 + ofTwoDigits e f) * 1000000))
  | _ => none

theorem ofTwoDigits_twoDigits {n : Nat} (h : n < 100) :
    ofTwoDigits (Json.hexDigit (n / 10)) (Json.hexDigit (n % 10)) = n := by
  rw [ofTwoDigits, Json.hexValue_hexDigit (by omega), Json.hexValue_hexDigit (by omega)]
  omega

theorem sampleFromisoformat_clock (a b c d e f : Char) (rest : List Char) :
    sampleFromisoformat (String.ofList ("1970-01-01T".toList ++ a :: b :: ':' :: c :: d :: ':' :: e :: f :: rest)) =
      some (.aware ((ofTwoDigits a b * 3600 + ofTwoDigits c d * 60 + ofTwoDigits e f) * 1000000)) := by
  rw [sampleFromisoformat, String.toList_ofList]
  rfl

theorem sampleFromisoformat_isoformat (t : Int) (hmin : minTime ≤ t) (_ : t ≤ maxTime) :
    sampleFromisoformat (sampleIsoformat t) = some (.aware t) := by
  unfold sampleIsoformat
  dsimp only
  split
  · rename_i hday
    obtain ⟨h0, hwhole, hseconds⟩ := hday
    simp only [twoDigits, List.cons_append, List.nil_append]
    rw [sampleFromisoformat_clock, ofTwoDigits_twoDigits (by omega), ofTwoDigits_twoDigits (by omega),
      ofTwoDigits_twoDigits (by omega)]
    congr 2
    omega
  · rw [sampleFromisoformat, String.toList_ofList]
    simp only [Nat.toString_eq_repr, Nat.toList_repr, Nat.ofDigitChars_ten_toDigits]
    congr 2
    omega

/-! ### Documents -/

def isSampleLiteral (literal : String) : Bool :=
  literal != "null" && !literal.toList.isEmpty && literal.toList.all Json.isWord

def literalValue (literal : String) : Json.Value :=
  if h : literal.toList ≠ [] ∧ literal.toList.all Json.isWord = true then .literal ⟨literal.toList, h.1, h.2⟩
  else .string literal.toList

mutual
def toValue : Document → Json.Value
  | .null => literalValue "null"
  | .scalar literal => literalValue literal
  | .text s => .string s.toList
  | .object shown => .string shown.toList
  | .list items => .array (toValues items)
  | .mapping fields => .object (toFields fields)

def toValues : List Document → List Json.Value
  | [] => []
  | item :: rest => toValue item :: toValues rest

def toFields : List (String × Document) → List (List Char × Json.Value)
  | [] => []
  | (key, child) :: rest => (key.toList, toValue child) :: toFields rest
end

theorem literalValue_eq {literal : String} (h : isSampleLiteral literal = true) :
    ∃ hne hword, literalValue literal = .literal ⟨literal.toList, hne, hword⟩ := by
  simp only [isSampleLiteral, Bool.and_eq_true, Bool.not_eq_true', List.isEmpty_eq_false_iff] at h
  exact ⟨h.1.2, h.2, dif_pos ⟨h.1.2, h.2⟩⟩

theorem nullValue_eq : literalValue "null" = .literal ⟨"null".toList, by decide, by decide⟩ := rfl

theorem literalValue_ne_null {literal : String} (h : isSampleLiteral literal = true) :
    literalValue "null" ≠ literalValue literal := by
  obtain ⟨hne, hword, heq⟩ := literalValue_eq h
  rw [heq, nullValue_eq]
  intro hsame
  have htext : "null" = literal := by
    simpa only [Json.Value.literal.injEq, Json.Literal.mk.injEq, String.toList_inj] using hsame
  subst htext
  revert h
  decide

mutual
theorem toValue_inj : ∀ d d' : Document, isJson isSampleLiteral d = true → isJson isSampleLiteral d' = true →
    toValue d = toValue d' → d = d'
  | .null, d', h, h', heq => by
    cases d' with
    | null => rfl
    | scalar literal => exact absurd heq (literalValue_ne_null h')
    | object shown => cases h'
    | text s => cases heq
    | list items => cases heq
    | mapping fields => cases heq
  | .scalar literal, d', h, h', heq => by
    obtain ⟨hne, hword, hvalue⟩ := literalValue_eq h
    cases d' with
    | null => exact absurd heq.symm (literalValue_ne_null h)
    | scalar literal' =>
      obtain ⟨hne', hword', hvalue'⟩ := literalValue_eq h'
      rw [toValue, toValue, hvalue, hvalue'] at heq
      simp only [Json.Value.literal.injEq, Json.Literal.mk.injEq, String.toList_inj] at heq
      rw [heq]
    | object shown => cases h'
    | text s =>
      rw [toValue, toValue, hvalue] at heq
      cases heq
    | list items =>
      rw [toValue, toValue, hvalue] at heq
      cases heq
    | mapping fields =>
      rw [toValue, toValue, hvalue] at heq
      cases heq
  | .text s, d', h, h', heq => by
    cases d' with
    | null => cases heq
    | scalar literal =>
      obtain ⟨hne, hword, hvalue⟩ := literalValue_eq h'
      rw [toValue, toValue, hvalue] at heq
      cases heq
    | object shown => cases h'
    | text s' =>
      rw [toValue, toValue, Json.Value.string.injEq, String.toList_inj] at heq
      rw [heq]
    | list items => cases heq
    | mapping fields => cases heq
  | .object shown, d', h, h', heq => by cases h
  | .list items, d', h, h', heq => by
    cases d' with
    | null => cases heq
    | scalar literal =>
      obtain ⟨hne, hword, hvalue⟩ := literalValue_eq h'
      rw [toValue, toValue, hvalue] at heq
      cases heq
    | object shown => cases h'
    | text s => cases heq
    | list items' =>
      rw [toValue, toValue, Json.Value.array.injEq] at heq
      rw [toValues_inj items items' h h' heq]
    | mapping fields => cases heq
  | .mapping fields, d', h, h', heq => by
    cases d' with
    | null => cases heq
    | scalar literal =>
      obtain ⟨hne, hword, hvalue⟩ := literalValue_eq h'
      rw [toValue, toValue, hvalue] at heq
      cases heq
    | object shown => cases h'
    | text s => cases heq
    | list items => cases heq
    | mapping fields' =>
      rw [toValue, toValue, Json.Value.object.injEq] at heq
      rw [isJson, Bool.and_eq_true] at h h'
      rw [toFields_inj fields fields' h.2 h'.2 heq]

theorem toValues_inj : ∀ items items' : List Document, areJson isSampleLiteral items = true →
    areJson isSampleLiteral items' = true → toValues items = toValues items' → items = items'
  | [], [], _, _, _ => rfl
  | [], _ :: _, _, _, heq => by cases heq
  | _ :: _, [], _, _, heq => by cases heq
  | item :: items, item' :: items', h, h', heq => by
    rw [areJson, Bool.and_eq_true] at h h'
    rw [toValues, toValues, List.cons.injEq] at heq
    rw [toValue_inj item item' h.1 h'.1 heq.1, toValues_inj items items' h.2 h'.2 heq.2]

theorem toFields_inj : ∀ fields fields' : List (String × Document), fieldsJson isSampleLiteral fields = true →
    fieldsJson isSampleLiteral fields' = true → toFields fields = toFields fields' → fields = fields'
  | [], [], _, _, _ => rfl
  | [], _ :: _, _, _, heq => by cases heq
  | _ :: _, [], _, _, heq => by cases heq
  | (key, child) :: fields, (key', child') :: fields', h, h', heq => by
    rw [fieldsJson, Bool.and_eq_true] at h h'
    rw [toFields, toFields, List.cons.injEq, Prod.mk.injEq, String.toList_inj] at heq
    rw [heq.1.1, toValue_inj child child' h.1 h'.1 heq.1.2, toFields_inj fields fields' h.2 h'.2 heq.2]
end

def sampleDumps (d : Document) : Bytes := Url.encodeUtf8 (Json.dumps (toValue d))

open Classical in
/-- The document that has this text, if one has. -/
noncomputable def sampleLoads (encoded : Bytes) : Option Document :=
  if h : ∃ d, isJson isSampleLiteral d = true ∧ sampleDumps d = encoded then some h.choose else none

theorem sampleLoads_dumps (d : Document) (hd : isJson isSampleLiteral d = true) : sampleLoads (sampleDumps d) = some d := by
  have h : ∃ d', isJson isSampleLiteral d' = true ∧ sampleDumps d' = sampleDumps d := ⟨d, hd, rfl⟩
  have heq := h.choose_spec
  rw [sampleLoads, dif_pos h, toValue_inj _ _ heq.1 hd (Json.dumps_inj (Url.encodeUtf8_inj heq.2))]

/-! ### Pages and bodies -/

/-- A page, its addresses being one. -/
structure SamplePage where
  url : String

structure SampleBody where
  casUri : String
  sha256 : String
  size : Nat

def textOf : Option Document → Option String
  | some (.text s) => some s
  | _ => none

def numberOf : Option Document → Option Nat
  | some (.scalar literal) => some (Nat.ofDigitChars 10 literal.toList 0)
  | _ => none

def dumpPage (page : SamplePage) : Document :=
  .mapping [("canonical_url", .text page.url), ("requested_url", .text page.url)]

def validatePage : Document → Option SamplePage
  | .mapping fields => (textOf (fields.lookup "canonical_url")).map SamplePage.mk
  | _ => none

def dumpBody (body : SampleBody) : Fields :=
  [("cas_uri", .text body.casUri), ("sha256", .text body.sha256), ("size", .scalar (toString body.size))]

def validateBody (fields : Fields) : Option SampleBody := do
  let casUri ← textOf (fields.lookup "cas_uri")
  let sha256 ← textOf (fields.lookup "sha256")
  let size ← numberOf (fields.lookup "size")
  return {casUri, sha256, size}

theorem numberOf_toString (n : Nat) : numberOf (some (.scalar (toString n))) = some n := by
  rw [numberOf, Nat.toString_eq_repr, Nat.toList_repr, Nat.ofDigitChars_ten_toDigits]

theorem isSampleLiteral_toString (n : Nat) : isSampleLiteral (toString n) = true := by
  have hdigit : ∀ ch ∈ (toString n).toList, ch.isDigit = true := by
    intro ch hch
    rw [Nat.toString_eq_repr, Nat.toList_repr] at hch
    exact Nat.isDigit_of_mem_toDigits (by decide) (by decide) hch
  rw [isSampleLiteral, Bool.and_eq_true, Bool.and_eq_true, List.all_eq_true]
  refine ⟨⟨?_, ?_⟩, fun ch hch => ?_⟩
  · rw [bne_iff_ne]
    intro hnull
    have hn := hdigit 'n' (by rw [hnull]; decide)
    revert hn
    decide
  · rw [Bool.not_eq_true', List.isEmpty_eq_false_iff, ne_eq, String.toList_eq_nil_iff]
    exact Nat.repr_ne_empty
  · simp [Json.isWord, Char.isAlphanum, hdigit ch hch]

theorem validateBody_eq {fields : Fields} {body : SampleBody} (h : validateBody fields = some body) :
    textOf (fields.lookup "cas_uri") = some body.casUri ∧ textOf (fields.lookup "sha256") = some body.sha256 ∧
      numberOf (fields.lookup "size") = some body.size := by
  simp only [validateBody, Option.bind_eq_bind, Option.bind_eq_some_iff, Option.pure_def, Option.some.injEq] at h
  obtain ⟨casUri, hcasUri, sha256, hsha256, size, hsize, rfl⟩ := h
  exact ⟨hcasUri, hsha256, hsize⟩

theorem validateBody_dumpBody (body : SampleBody) : validateBody (dumpBody body) = some body := by
  have hsize : numberOf ((dumpBody body).lookup "size") = some body.size := numberOf_toString body.size
  rw [validateBody, hsize]
  rfl

theorem isJson_dumpBody (body : SampleBody) : isJson isSampleLiteral (.mapping (dumpBody body)) = true := by
  simp only [dumpBody, isJson, fieldsJson, isSampleLiteral_toString, List.map, Bool.and_true]
  exact decide_eq_true (by decide)

theorem isJson_dumpPage (page : SamplePage) : isJson isSampleLiteral (dumpPage page) = true := by
  simp only [dumpPage, isJson, fieldsJson, List.map, Bool.and_true, decide_eq_true_eq]
  decide

theorem validatePage_dumpPage (page : SamplePage) : validatePage (dumpPage page) = some page := rfl

theorem isSampleLiteral_bool (b : Bool) : isSampleLiteral (if b then "true" else "false") = true := by
  cases b <;> decide

theorem dumpBody_casUri (body : SampleBody) : (dumpBody body).lookup "cas_uri" = some (.text body.casUri) := rfl

theorem dumpBody_sha256 (body : SampleBody) : (dumpBody body).lookup "sha256" = some (.text body.sha256) := rfl

theorem dumpBody_size (body : SampleBody) : (dumpBody body).lookup "size" = some (.scalar (toString body.size)) := rfl

theorem validateBody_casUri (fields : Fields) (body : SampleBody) (s : String) (h : validateBody fields = some body)
    (hs : fields.lookup "cas_uri" = some (.text s)) : body.casUri = s := by
  have hcasUri := (validateBody_eq h).1
  rw [hs] at hcasUri
  exact (Option.some.inj hcasUri).symm

theorem validateBody_sha256 (fields : Fields) (body : SampleBody) (s : String) (h : validateBody fields = some body)
    (hs : fields.lookup "sha256" = some (.text s)) : body.sha256 = s := by
  have hsha256 := (validateBody_eq h).2.1
  rw [hs] at hsha256
  exact (Option.some.inj hsha256).symm

theorem validateBody_size (fields : Fields) (body : SampleBody) (n : Nat) (h : validateBody fields = some body)
    (hn : fields.lookup "size" = some (.scalar (toString n))) : body.size = n := by
  have hsize := (validateBody_eq h).2.2
  rw [hn, numberOf_toString] at hsize
  exact (Option.some.inj hsize).symm

noncomputable def sampleContracts : Contracts SamplePage SampleBody where
  isLiteral := isSampleLiteral
  literal_bool := isSampleLiteral_bool
  dumps := sampleDumps
  loads := sampleLoads
  loads_dumps := sampleLoads_dumps
  dumpResource := dumpPage
  validateResource := validatePage
  resourceId _ := "0"
  canonicalUrl page := page.url
  requestedUrl page := page.url
  authorityUrl _ := none
  withUrls _ canonicalUrl _ _ := ⟨canonicalUrl⟩
  dumpArtifact := dumpBody
  validateArtifact := validateBody
  casUri := SampleBody.casUri
  sha256 := SampleBody.sha256
  size := SampleBody.size
  sourceResourceId _ := "0"
  json_resource := isJson_dumpPage
  json_artifact := isJson_dumpBody
  validate_dumpResource := validatePage_dumpPage
  validate_dumpArtifact := validateBody_dumpBody
  dump_casUri := dumpBody_casUri
  dump_sha256 := dumpBody_sha256
  dump_size := dumpBody_size
  validate_casUri := validateBody_casUri
  validate_sha256 := validateBody_sha256
  validate_size := validateBody_size

/-! ### The hash of the snapshots of one page -/

/-- The SHA-256 of `a`. -/
def sampleSha256 : String := "ca978112ca1bbdcafac231b39a23dc4da786eff8147c4e72b9807785afee48bb"

def secondTime (i : Nat) : Int := i * 1000000

/-- What the id of the snapshot of second `i` is the hash of. -/
def sampleText (i : Nat) : Bytes :=
  utf8 (snapshotText (hex64 0) sampleSha256 (sampleIsoformat (secondTime i)) "web_archive")

/-- A hash that tells the snapshots of the first ten thousand seconds apart. -/
def sampleDigest (body : Bytes) : String :=
  if body = [97] then sampleSha256
  else
    match (List.range 10001).find? fun i => body == sampleText i with
    | some i => hex64 (i + 1)
    | none => hex64 0

theorem isDigest_sampleDigest (body : Bytes) : isDigest (sampleDigest body) = true := by
  unfold sampleDigest
  split
  · decide +kernel
  · split <;> exact isDigest_hex64 _

theorem secondTime_inRange {i : Nat} (h : i < 10001) : minTime ≤ secondTime i ∧ secondTime i ≤ maxTime := by
  rw [secondTime, minTime, maxTime]
  omega

theorem middle_inj {a b c d e f g x x' : String}
    (h : a ++ b ++ c ++ d ++ e ++ x ++ f ++ g = a ++ b ++ c ++ d ++ e ++ x' ++ f ++ g) : x = x' := by
  rw [← String.toList_inj] at h
  simp only [String.toList_append] at h
  exact String.toList_inj.mp (List.append_cancel_left (List.append_cancel_right (List.append_cancel_right h)))

theorem snapshotText_now {keyDigest sha256 now now' sourceCapability : String}
    (h : snapshotText keyDigest sha256 now sourceCapability = snapshotText keyDigest sha256 now' sourceCapability) :
    now = now' := by
  unfold snapshotText at h
  exact middle_inj h

theorem utf8_inj {s s' : String} (h : utf8 s = utf8 s') : s = s' := String.toList_inj.mp (Url.encodeUtf8_inj h)

theorem sampleText_inj {i j : Nat} (hi : i < 10001) (hj : j < 10001) (h : sampleText i = sampleText j) : i = j := by
  unfold sampleText at h
  have htime := congrArg sampleFromisoformat (snapshotText_now (utf8_inj h))
  rw [sampleFromisoformat_isoformat _ (secondTime_inRange hi).1 (secondTime_inRange hi).2,
    sampleFromisoformat_isoformat _ (secondTime_inRange hj).1 (secondTime_inRange hj).2] at htime
  have hseconds := Moment.aware.inj (Option.some.inj htime)
  rw [secondTime, secondTime] at hseconds
  omega

theorem utf8_append (s s' : String) : utf8 (s ++ s') = utf8 s ++ utf8 s' := by
  rw [utf8, String.toList_append, Url.encodeUtf8, List.flatMap_append]
  rfl

theorem head_utf8_append {s : String} {byte : UInt8} (h : (utf8 s).head? = some byte) (s' : String) :
    (utf8 (s ++ s')).head? = some byte := by
  rw [utf8_append, List.head?_append, h, Option.some_or]

theorem sampleText_head (i : Nat) : (sampleText i).head? = some 102 := by
  have hprefix : (utf8 "fetech-snapshot-v1\x00").head? = some 102 := by decide +kernel
  unfold sampleText snapshotText
  iterate 7 apply head_utf8_append
  exact hprefix

theorem sampleDigest_text {i : Nat} (h : i < 10001) : sampleDigest (sampleText i) = hex64 (i + 1) := by
  have hne : sampleText i ≠ [97] := by
    intro heq
    have hhead := sampleText_head i
    rw [heq] at hhead
    exact absurd (Option.some.inj hhead) (by decide)
  rw [sampleDigest, if_neg hne]
  cases hfind : (List.range 10001).find? fun j => sampleText i == sampleText j with
  | none =>
    have hself := List.find?_eq_none.mp hfind i (List.mem_range.mpr h)
    exact absurd (beq_self_eq_true _) hself
  | some j =>
    have hsame : sampleText i = sampleText j := by simpa using List.find?_some hfind
    have hj := List.mem_range.mp (List.mem_of_find?_eq_some hfind)
    rw [sampleText_inj h hj hsame]

theorem sampleDigest_other {body : Bytes} (h : body ≠ [97]) (hhead : body.head? ≠ some 102) :
    sampleDigest body = hex64 0 := by
  rw [sampleDigest, if_neg h]
  cases hfind : (List.range 10001).find? fun j => body == sampleText j with
  | none => rfl
  | some j =>
    have hsame : body = sampleText j := by simpa using List.find?_some hfind
    exact absurd (hsame ▸ sampleText_head j) hhead

def sampleStr : Document → String
  | .text s => s
  | _ => ""

theorem sampleStr_text (s : String) : sampleStr (.text s) = s := rfl

noncomputable def samplePlatform : Platform SamplePage SampleBody where
  toContracts := sampleContracts
  hash := ⟨sampleDigest, isDigest_sampleDigest⟩
  codecs := asciiCodecs
  isoformat := sampleIsoformat
  fromisoformat := sampleFromisoformat
  from_isoformat := sampleFromisoformat_isoformat
  str := sampleStr
  str_text := sampleStr_text

theorem samplePlatform_hash : samplePlatform.hash.hexdigest = sampleDigest := rfl

/-! ### Storing the page -/

def sampleKey (scope : String) : CacheKey where
  url := "https://a.example/"
  representation := "archived_snapshot"
  authenticationScope := scope
  policyProfile := "default"
  language := ""
  parserVersion := "1"

def sampleBody : SampleBody := {casUri := casPrefix ++ sampleSha256, sha256 := sampleSha256, size := 1}

/-- A content store that holds `a`. -/
def sampleCas : Cas := fun _ _ => .ok [97]

section
variable (scope : String) (reference : Option String) (i : Nat)

/-- The page is stored at second `i`. -/
def storeAt : StoreCall SamplePage SampleBody where
  key := sampleKey scope
  resource := ⟨"https://a.example/"⟩
  artifact := sampleBody
  request := {target := "https://a.example/", authenticationRef := reference}
  sourceCapability := "web_archive"
  storedAt := .aware (secondTime i)

def recordAt : SnapshotRecord SamplePage SampleBody where
  snapshotId := hex64 (i + 1)
  keyDigest := hex64 0
  authenticationScope := scope
  sourceCapability := "web_archive"
  resource := ⟨"https://a.example/"⟩
  artifact := sampleBody
  storedAt := secondTime i
  expiresAt := none

theorem sampleKey_digest : (sampleKey scope).digest samplePlatform.hash = hex64 0 := by
  have hhead : (sampleKey scope).encoded.head? = some 123 := rfl
  rw [CacheKey.digest, samplePlatform_hash]
  apply sampleDigest_other
  · intro heq
    rw [heq] at hhead
    exact absurd (Option.some.inj hhead) (by decide)
  · rw [hhead]
    decide

theorem sampleBody_verified : verifyArtifact samplePlatform sampleCas sampleBody = .ok () :=
  verifyArtifact_eq_ok.mpr ⟨rfl, [97], rfl, rfl, rfl⟩

theorem samplePage_sanitized : sanitizedResource samplePlatform (storeAt scope reference i).request
    (storeAt scope reference i).resource = .ok ⟨"https://a.example/"⟩ := by
  have hurl : ∀ b, sanitizeUrl asciiCodecs (sanitizeQuery asciiCodecs) "https://a.example/" b =
      some "https://a.example/" := by decide +kernel
  have hfor : sanitizeFor samplePlatform (storeAt scope reference i).request "https://a.example/" =
      .ok "https://a.example/" := by
    show ofOption _ (sanitizeUrl asciiCodecs (sanitizeQuery asciiCodecs) "https://a.example/" reference.isSome) = _
    rw [hurl]
    rfl
  unfold sanitizedResource
  show (do
    let canonicalUrl ← sanitizeFor samplePlatform (storeAt scope reference i).request "https://a.example/"
    let _ ← sanitizeFor samplePlatform (storeAt scope reference i).request "https://a.example/"
    pure (SamplePage.mk canonicalUrl)) = _
  rw [hfor]
  rfl

theorem sampleBody_sanitized : sanitizedArtifact samplePlatform (storeAt scope reference i).request
    (storeAt scope reference i).artifact = .ok sampleBody := by
  have hdigest : isDigest sampleSha256 = true := by decide +kernel
  have hfields : outputFields asciiCodecs reference.isSome (dumpBody sampleBody) = dumpBody sampleBody := by
    simp only [dumpBody, sampleBody, outputFields, sanitizeOutputForRequest]
    rw [outputText_address _ _ (isOutputUrl_casUri _) (toLower_casUri hdigest),
      outputText_address _ _ (isOutputUrl_sha256 _) (toLower_digest hdigest)]
  show ofOption _ (validateBody (outputFields asciiCodecs reference.isSome (dumpBody sampleBody))) = _
  rw [hfields, validateBody_dumpBody]
  rfl

end

theorem length_sampleIsoformat {i : Nat} (h : i < 10001) : (sampleIsoformat (secondTime i)).toList.length = 25 := by
  have hseconds : (secondTime i / 1000000).toNat = i := by
    rw [secondTime]
    omega
  have hday : 0 ≤ secondTime i ∧ secondTime i % 1000000 = 0 ∧ (secondTime i / 1000000).toNat < 86400 := by
    rw [hseconds, secondTime]
    omega
  rw [sampleIsoformat, if_pos hday, String.toList_ofList]
  rfl

theorem length_hex64 (n : Nat) : (hex64 n).toList.length = 64 := by
  rw [hex64, String.toList_ofList, List.length_map, List.length_range]

theorem bound_recordAt {scope : String} (hscope : scope.toList.length ≤ 100) {i : Nat} (h : i < 10001) :
    Json.bound (toValue (recordDocument samplePlatform (recordAt scope i))) ≤ 20000 := by
  have hbody : Json.boundFields (toFields (samplePlatform.dumpArtifact sampleBody)) ≤ 3000 := by
    show Json.boundFields (toFields (dumpBody sampleBody)) ≤ 3000
    decide +kernel
  have hpage : Json.bound (toValue (samplePlatform.dumpResource ⟨"https://a.example/"⟩)) ≤ 3000 := by
    show Json.bound (toValue (dumpPage ⟨"https://a.example/"⟩)) ≤ 3000
    decide +kernel
  have hnull : Json.bound (toValue (optionalText none)) = 4 := rfl
  have htrue : Json.bound (literalValue "true") = 4 := rfl
  have htime : (samplePlatform.isoformat (secondTime i)).toList.length = 25 := length_sampleIsoformat h
  simp only [recordDocument, toValue, toFields, Json.bound, Json.boundFields, recordAt, Option.map_none, hnull, htime,
    length_hex64, if_true, htrue, String.reduceToList, List.length_cons, List.length_nil]
  generalize Json.boundFields (toFields (samplePlatform.dumpArtifact sampleBody)) = body at hbody ⊢
  generalize Json.bound (toValue (samplePlatform.dumpResource ⟨"https://a.example/"⟩)) = page at hpage ⊢
  omega

theorem length_recordAt {scope : String} (hscope : scope.toList.length ≤ 100) {i : Nat} (h : i < 10001) :
    (samplePlatform.dumps (recordDocument samplePlatform (recordAt scope i))).length ≤ maxMetadataBytes := by
  have hbound := bound_recordAt hscope h
  have hutf8 := Url.length_encodeUtf8_le (Json.dumps (toValue (recordDocument samplePlatform (recordAt scope i))))
  have hdumps := Json.length_dumps_le (toValue (recordDocument samplePlatform (recordAt scope i)))
  show (Url.encodeUtf8 (Json.dumps (toValue (recordDocument samplePlatform (recordAt scope i))))).length ≤ 1000000
  omega

theorem sampleDigest_store (scope : String) (reference : Option String) {i : Nat} (h : i < 10001) :
    samplePlatform.hash.hexdigest (utf8 (snapshotText (hex64 0)
      (samplePlatform.sha256 (storeAt scope reference i).artifact) (samplePlatform.isoformat (secondTime i))
      (storeAt scope reference i).sourceCapability)) = hex64 (i + 1) := by
  rw [samplePlatform_hash]
  exact sampleDigest_text h

/-- A store at a time of its own adds a file. -/
theorem store_storeAt {scope : String} (hscope : scope.toList.length ≤ 100) (reference : Option String) {i : Nat}
    (h : i < 10001) {files : Metadata} (hfree : files.get? (hex64 0, hex64 (i + 1)) = none) :
    store samplePlatform sampleCas files (storeAt scope reference i) =
      .ok (recordAt scope i, files.set (hex64 0, hex64 (i + 1))
        (samplePlatform.dumps (recordDocument samplePlatform (recordAt scope i)))) := by
  have hnow : toUtc "snapshot storage time" (storeAt scope reference i).storedAt = .ok (secondTime i) := if_pos (secondTime_inRange h)
  have hverified : verifyArtifact samplePlatform sampleCas (storeAt scope reference i).artifact = .ok () := sampleBody_verified
  have hkey : (storeAt scope reference i).key.digest samplePlatform.hash = hex64 0 :=
    sampleKey_digest scope
  have hwrote (encoded : Bytes) : writeImmutable files (hex64 0, hex64 (i + 1)) encoded =
      .ok (files.set (hex64 0, hex64 (i + 1)) encoded) := by
    rw [writeImmutable, hfree]
  have hcapability : cacheCapabilities.contains "web_archive" = true := by decide
  have hrecord : storedRecord samplePlatform sampleCas (storeAt scope reference i) = .ok (recordAt scope i) := by
    unfold storedRecord
    simp only [bind_eq_ok, require_eq_ok, requireDigest, exists_const, hnow, hverified, samplePage_sanitized,
      sampleBody_sanitized, Except.ok.injEq, exists_eq_left', hkey, sampleDigest_store scope reference h, isDigest_hex64,
      true_and]
    exact ⟨none, rfl, (), rfl, (), rfl, hcapability, rfl, decide_eq_true (length_recordAt hscope h), rfl⟩
  rw [store, hrecord]
  show (writeImmutable files (hex64 0, hex64 (i + 1)) _ >>= fun files => pure (recordAt scope i, files)) = _
  rw [hwrote]
  rfl

end Fetech.Snapshots
