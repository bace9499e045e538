import Fetech.Security.PublicUrl

/-! Whether what the ledger stores could be shown as it is (`fetech/ledger.py`, `fetech/security.py`).

The ledger sanitises a payload with its own function and its own list of URL keys. Shown to
the caller of a public run, the stored document goes through `sanitize_output_for_request`.
The two agree on a document exactly where they agree on its strings, key by key: a key only
the second function knows is stored with whatever URL was there. -/
namespace Fetech.Ledger.Persisted
open Lib.Url

/-- The `payload_json` of an event, as it is read back; `authenticated` is whether its run is
in `_authenticated_runs`. -/
def persisted (c : Codecs) (authenticated : Bool) (payload : List (String × Document)) : List (String × Document) :=
  dumpedFields (payloadFields c authenticated payload)

/-! ### The strings of a payload -/

/-- A string that reaches the database, with the key it stands under. -/
inductive Leaf where
  | text (key s : String)
  /-- Not a string in Python: `json.dumps` writes what `str` shows. -/
  | object (key shown : String)

mutual
/-- The strings of a document that no key redacts. -/
def leaves (c : Codecs) (key : String) (d : Document) : List Leaf :=
  if isRedactedKey c key then []
  else match d with
    | .mapping fields => leavesOfFields c fields
    | .list items => leavesOfItems c key items
    | .text s => [.text key s]
    | .object shown => [.object key shown]
    | .null => []
    | .scalar _ => []

def leavesOfFields (c : Codecs) : List (String × Document) → List Leaf
  | [] => []
  | (key, child) :: rest => leaves c key child ++ leavesOfFields c rest

def leavesOfItems (c : Codecs) (key : String) : List Document → List Leaf
  | [] => []
  | child :: rest => leaves c key child ++ leavesOfItems c key rest
end

/-- A text in which `sanitize_url` finds nothing to remove. -/
def IsClean (c : Codecs) (value : String) : Prop := sanitizeUrlField c false value = value

/-- Where the output of a public run takes a key for a URL, the ledger stored a clean one: it
knew the key and cleaned the URL for good, or the URL was clean. -/
def Leaf.Agrees (c : Codecs) (authenticated : Bool) : Leaf → Prop
  | .text key s => isOutputUrl c key = true →
    if isPayloadUrl c key then IsClean c (sanitizeUrlField c authenticated s)
    else IsClean c (if authenticated then sanitizeAuthenticatedText c s else s)
  | .object key shown => isOutputUrl c key = true → IsClean c shown

/-! ### Marks -/

/-- A text without the characters that have a meaning in a URL is its own path. -/
theorem isClean_of_plain (c : Codecs) (mark : String)
    (hplain : (mark.toList.all fun ch => decide (32 < ch.val ∧ ch ∉ [':', '/', '?', '#'])) = true) : IsClean c mark := by
  have hmark : ∀ ch ∈ mark.toList, 32 < ch.val ∧ ch ∉ [':', '/', '?', '#'] := fun ch hch =>
    of_decide_eq_true (List.all_eq_true.mp hplain ch hch)
  have hnot : ∀ d ∈ [':', '/', '?', '#'], d ∉ mark.toList := fun d hd hmem => (hmark d hmem).2 hd
  have hkept : ∀ ch ∈ mark.toList, (ch != '\t' && ch != '\r' && ch != '\n') = true := by
    intro ch hch
    have hne : ∀ d : Char, d.val ≤ 32 → ch ≠ d := by
      rintro d hd rfl
      exact absurd (hmark ch hch).1 (UInt32.not_lt.mpr hd)
    simp [hne '\t' (by decide), hne '\r' (by decide), hne '\n' (by decide)]
  have hclean : clean mark.toList = mark.toList := by
    have hfront : mark.toList.dropWhile (fun ch => decide (ch.val ≤ 32)) = mark.toList := by
      cases hlist : mark.toList with
      | nil => rfl
      | cons ch rest =>
        have hbig := (hmark ch (by rw [hlist]; exact List.mem_cons_self ..)).1
        exact List.dropWhile_cons_of_neg (by simpa using hbig)
    rw [clean, hfront]
    exact List.filter_eq_self.mpr hkept
  have hscheme : splitScheme [] mark.toList = ([], mark.toList) := by
    have hcolon : mark.toList.contains ':' = false := by
      simpa using hnot ':' (by decide)
    simp only [splitScheme, hcolon, Bool.false_and, Bool.false_eq_true, if_false]
  have hauthority : splitAuthority mark.toList = ([], mark.toList) :=
    splitAuthority_of_head fun hhead => hnot '/' (by decide) (List.mem_of_head? hhead)
  have hhash := before_of_notMem (hnot '#' (by decide))
  have hquery := before_of_notMem (hnot '?' (by decide))
  have hsplit : urlsplit c.toTables mark.toList =
      some {scheme := [], netloc := [], path := mark.toList, query := [], fragment := []} := by
    rw [urlsplit_eq, hclean, hscheme]
    dsimp only
    rw [hauthority, splitRest, hhash.1, hhash.2, hquery.1, hquery.2]
    rfl
  have hlower : c.lower [] = [] := c.lower_ascii [] rfl
  have hslashes : mark.toList.take 2 ≠ ['/', '/'] := fun htake =>
    hnot '/' (by decide) (List.mem_of_mem_take (htake ▸ List.mem_cons_self : '/' ∈ mark.toList.take 2))
  unfold IsClean sanitizeUrlField sanitizeUrl
  rw [hsplit]
  simp [SplitResult.hostname, SplitResult.rawHost, SplitResult.port, SplitResult.rawPort, hlower, urlunsplit, joinAuthority,
    hslashes, sanitizeQuery, parseQsl, urlencode, afterLast, before, after, parsePair]

theorem isClean_redacted (c : Codecs) : IsClean c redacted := isClean_of_plain c redacted (by decide)

/-! ### URLs the ledger cleans -/

/-- A URL is cleaned for good if its shown form is read back as it was shown: the query always
settles, so only the authority and the path may not. -/
theorem isClean_shown {c : Codecs} {redactQuery : Bool} {s : String} {parts shown : SplitResult}
    {written : Option Nat} (hparts : urlsplit c.toTables s.toList = some parts) (hwritten : parts.port = some written)
    (hshown : shown = {parts with
      netloc := shownAuthority c.toTables parts written, query := sanitizeQuery c redactQuery parts.query
      fragment := []})
    (hback : urlsplit c.toTables (urlunsplit shown) = some shown)
    (hhost : shown.hostname c.toTables = parts.hostname c.toTables)
    (hport : shown.port = some (written.filter (· ≠ 0))) :
    IsClean c (sanitizeUrlField c redactQuery s) := by
  have hfield : sanitizeUrlField c redactQuery s = String.ofList (urlunsplit shown) := by
    rw [sanitizeUrlField, sanitizeUrl_eq hparts hwritten, Option.getD_some, hshown]
  have hread : urlsplit c.toTables (String.ofList (urlunsplit shown)).toList = some shown := by
    rw [String.toList_ofList, hback]
  have hauthority : shownAuthority c.toTables shown (written.filter (· ≠ 0)) = shown.netloc := by
    have hzero : written.filter (· ≠ 0) ≠ some 0 := by simp
    rw [shownAuthority, hhost, withPort_filter_iff.mpr hzero, hshown, shownAuthority]
  have hquery : sanitizeQuery c false shown.query = shown.query := by
    rw [sanitizeQuery_eq_self_iff, hshown]
    exact presentable_sanitizeQuery redactQuery parts.query
  have hfragment : shown.fragment = [] := by rw [hshown]
  have hsame : {shown with netloc := shown.netloc, query := shown.query, fragment := []} = shown := by
    rw [← hfragment]
  rw [IsClean, hfield, sanitizeUrlField, sanitizeUrl_eq hread hport, Option.getD_some, hauthority, hquery, hsame]

/-! ### Agreement -/

/-- A text of an output of a public run. -/
theorem outputText_eq_self_iff (c : Codecs) (key value : String) :
    outputText c false key value = value ↔ (isOutputUrl c key = true → IsClean c value) := by
  unfold outputText IsClean
  split
  · rename_i hkey
    simp [hkey]
  · rename_i hkey
    simp [hkey]

theorem agrees_text (c : Codecs) (authenticated : Bool) (key s : String) :
    outputText c false key (payloadText c authenticated key s) = payloadText c authenticated key s ↔
      (Leaf.text key s).Agrees c authenticated := by
  rw [outputText_eq_self_iff]
  simp only [payloadText, Leaf.Agrees]
  split
  · exact Iff.rfl
  · exact Iff.rfl

variable (c : Codecs) (authenticated : Bool)

mutual
/-- The stored form of a document is what the output makes of it if that holds of its
strings: one case for each form a value can have. -/
theorem output_dumped_iff (key : String) (d : Document) :
    sanitizeOutputForRequest c false key (dumped (sanitizePayload c authenticated key d)) =
        dumped (sanitizePayload c authenticated key d) ↔
      ∀ leaf ∈ leaves c key d, leaf.Agrees c authenticated := by
  rw [sanitizePayload.eq_def, leaves.eq_def]
  by_cases hkey : isRedactedKey c key = true
  · have hmark : outputText c false key redacted = redacted :=
      (outputText_eq_self_iff c key redacted).mpr fun _ => isClean_redacted c
    simp [hkey, dumped, sanitizeOutputForRequest, hmark]
  · rw [if_neg hkey, if_neg hkey]
    match d with
    | .null => simp [dumped, sanitizeOutputForRequest]
    | .scalar literal => simp [dumped, sanitizeOutputForRequest]
    | .text s => simp [dumped, sanitizeOutputForRequest, agrees_text]
    | .object shown => simp [dumped, sanitizeOutputForRequest, outputText_eq_self_iff, Leaf.Agrees]
    | .list items => simpa [dumped, sanitizeOutputForRequest] using output_dumpedItems_iff key items
    | .mapping fields => simpa [dumped, sanitizeOutputForRequest] using output_dumpedFields_iff fields

theorem output_dumpedFields_iff : (fields : List (String × Document)) →
    (outputFields c false (dumpedFields (payloadFields c authenticated fields)) =
        dumpedFields (payloadFields c authenticated fields) ↔
      ∀ leaf ∈ leavesOfFields c fields, leaf.Agrees c authenticated)
  | [] => by simp [payloadFields, dumpedFields, outputFields, leavesOfFields]
  | (key, child) :: rest => by
    have hchild := output_dumped_iff key child
    have hrest := output_dumpedFields_iff rest
    simp only [payloadFields, dumpedFields, outputFields, leavesOfFields, List.cons.injEq, Prod.mk.injEq, true_and,
      hchild, hrest, List.mem_append, or_imp, forall_and]

theorem output_dumpedItems_iff (key : String) : (items : List Document) →
    (outputItems c false key (dumpedItems (payloadItems c authenticated key items)) =
        dumpedItems (payloadItems c authenticated key items) ↔
      ∀ leaf ∈ leavesOfItems c key items, leaf.Agrees c authenticated)
  | [] => by simp [payloadItems, dumpedItems, outputItems, leavesOfItems]
  | child :: rest => by
    have hchild := output_dumped_iff key child
    have hrest := output_dumpedItems_iff key rest
    simp only [payloadItems, dumpedItems, outputItems, leavesOfItems, List.cons.injEq, hchild, hrest, List.mem_append,
      or_imp, forall_and]
end

/-- **What `append` stores can be shown as it is exactly when each of its strings can**: no
string stands under a key that only the output takes for a URL with something left to remove,
and every URL the ledger cleaned is clean for good. -/
theorem persisted_shown_as_stored (payload : List (String × Document)) :
    outputFields c false (persisted c authenticated payload) = persisted c authenticated payload ↔
      ∀ leaf ∈ leavesOfFields c payload, leaf.Agrees c authenticated :=
  output_dumpedFields_iff c authenticated payload

/-- A form's target, with a password and a token. -/
def formPayload : List (String × Document) :=
  [("action", .text "https://user:pw@example.com/send?token=abc#top")]

/-- A key the ledger does not know: stored as it is, shown without its secrets. -/
theorem action_stored_unclean : persisted asciiCodecs false formPayload = formPayload ∧
    outputFields asciiCodecs false formPayload =
      [("action", .text "https://example.com/send?token=%5BREDACTED%5D")] ∧
    outputFields asciiCodecs false (persisted asciiCodecs false formPayload) ≠
      persisted asciiCodecs false formPayload := by
  have hstored : persisted asciiCodecs false formPayload = formPayload := by rfl
  have hshown : outputFields asciiCodecs false formPayload =
      [("action", .text "https://example.com/send?token=%5BREDACTED%5D")] := by rfl
  refine ⟨hstored, hshown, ?_⟩
  rw [hstored, hshown]
  simp [formPayload]

end Fetech.Ledger.Persisted
