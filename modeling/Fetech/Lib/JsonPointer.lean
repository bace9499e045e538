import Fetech.Lib.JsonRoundtrip
import Fetech.Lib.PosixPath

/-! The leaves of a JSON document, and pointers to them.

A leaf is a scalar or an empty container, at the end of a path of keys and indices. Leaves come
depth first, the keys of an object in order (`leaves`). A path is written as a JSON pointer, whose
tokens escape `~` and `/`; no two leaves have the same pointer (`nodup_pointers`), and a leaf's
pointer leads to it (`resolve_pointer`). -/
namespace Lib.JsonPointer
open JsonText

inductive Step where
  | key (k : Text)
  | index (n : Nat)

def tilde : CodePoint := 0x7e

/-- `str.replace` of one character. -/
def replace (old : CodePoint) (new s : Text) : Text := s.flatMap fun c => if c = old then new else [c]

/-- A key as a token: `~` as `~0`, `/` as `~1`. -/
def token (key : Text) : Text := replace slash [tilde, digit 1] (replace tilde [tilde, digit 0] key)

def Step.text : Step → Text
  | .key k => token k
  | .index n => writeNat n

def pointer (path : List Step) : Text := path.flatMap fun step => slash :: step.text

/-! ### Resolution -/

/-- The key of a token; `none` if it is none. -/
def unescape : Text → Option Text
  | [] => some []
  | c :: rest =>
    if c = tilde then
      match rest with
      | [] => none
      | d :: rest =>
        if d = digit 0 then (unescape rest).map (tilde :: ·)
        else if d = digit 1 then (unescape rest).map (slash :: ·)
        else none
    else (unescape rest).map (c :: ·)

/-- The index of a token: digits, without leading zeros. -/
def readIndex : Text → Option Nat
  | [] => none
  | c :: rest => if (c :: rest).all isDigit ∧ (c = digit 0 → rest = []) then some (natOf (c :: rest)) else none

variable {φ : Type}

def resolveTokens : List Text → JsonValue φ → Option (JsonValue φ)
  | [], v => some v
  | t :: rest, .object fields => do
    let key ← unescape t
    let field ← fields.find? fun field => field.1 = key
    resolveTokens rest field.2
  | t :: rest, .array items => do
    let n ← readIndex t
    let v ← items[n]?
    resolveTokens rest v
  | _, _ => none

/-- What a JSON pointer leads to in a document. -/
def resolve (s : Text) (document : JsonValue φ) : Option (JsonValue φ) :=
  match s.splitOn slash with
  | [] :: tokens => resolveTokens tokens document
  | _ => none

/-! ### Leaves -/

abbrev Leaf (φ : Type) := List Step × JsonValue φ

/-- The leaves of what a step leads to. -/
def under (step : Step) (leaves : List (Leaf φ)) : List (Leaf φ) := leaves.map fun leaf => (step :: leaf.1, leaf.2)

/-- The fields of an object by their keys. -/
def byKey {α : Type} (fields : List (Text × α)) : List (Text × α) :=
  fields.insertionSort fun field field' => field.1 ≤ field'.1

mutual
/-- The leaves of a document, depth first. -/
def leaves : JsonValue φ → List (Leaf φ)
  | .array [] => [([], .array [])]
  | .array (v :: rest) => itemLeaves 0 (v :: rest)
  | .object [] => [([], .object [])]
  | .object (field :: rest) => (byKey (fieldLeaves (field :: rest))).flatMap Prod.snd
  | v => [([], v)]

def itemLeaves (n : Nat) : List (JsonValue φ) → List (Leaf φ)
  | [] => []
  | v :: rest => under (.index n) (leaves v) ++ itemLeaves (n + 1) rest

def fieldLeaves : List (Text × JsonValue φ) → List (Text × List (Leaf φ))
  | [] => []
  | (key, v) :: rest => (key, under (.key key) (leaves v)) :: fieldLeaves rest
end

theorem leaves_array {items : List (JsonValue φ)} (h : items ≠ []) :
    leaves (.array items) = items.zipIdx.flatMap fun item => under (.index item.2) (leaves item.1) := by
  have hfrom : ∀ (rest : List (JsonValue φ)) (n : Nat),
      itemLeaves n rest = (rest.zipIdx n).flatMap fun item => under (.index item.2) (leaves item.1) := by
    intro rest
    induction rest with
    | nil => exact fun n => rfl
    | cons v rest ih =>
      intro n
      rw [itemLeaves, ih, List.zipIdx_cons, List.flatMap_cons]
  cases items with
  | nil => exact absurd rfl h
  | cons v rest => rw [leaves, hfrom]

theorem byKey_map {α β : Type} (g : Text × α → β) (fields : List (Text × α)) :
    byKey (fields.map fun field => (field.1, g field)) = (byKey fields).map fun field => (field.1, g field) := by
  refine (List.map_insertionSort (r := fun a b : Text × α => a.1 ≤ b.1) (s := fun a b : Text × β => a.1 ≤ b.1) _ fields ?_).symm
  exact fun _ _ _ _ => Iff.rfl

theorem leaves_object {fields : List (Text × JsonValue φ)} (h : fields ≠ []) :
    leaves (.object fields) = (byKey fields).flatMap fun field => under (.key field.1) (leaves field.2) := by
  have hmap : ∀ rest : List (Text × JsonValue φ),
      fieldLeaves rest = rest.map fun field => (field.1, under (.key field.1) (leaves field.2)) := by
    intro rest
    induction rest with
    | nil => rfl
    | cons field rest ih =>
      rw [fieldLeaves, ih]
      rfl
  cases fields with
  | nil => exact absurd rfl h
  | cons field rest =>
    rw [leaves, hmap, byKey_map, List.flatMap_map]

/-! ### Tokens -/

theorem token_cons (c : CodePoint) (key : Text) : token (c :: key) =
    (if c = tilde then [tilde, digit 0] else if c = slash then [tilde, digit 1] else [c]) ++ token key := by
  rw [token, replace, replace, List.flatMap_cons, List.flatMap_append]
  congr 1
  split
  · rfl
  · split <;> simp [*]

theorem slash_notMem_token (key : Text) : slash ∉ token key := by
  induction key with
  | nil => exact List.not_mem_nil
  | cons c key ih =>
    rw [token_cons, List.mem_append]
    intro h
    obtain h | h := h
    · split at h
      · exact absurd h (by decide)
      · split at h
        · exact absurd h (by decide)
        · exact absurd (List.mem_singleton.mp h).symm ‹_›
    · exact ih h

theorem unescape_token (key : Text) : unescape (token key) = some key := by
  induction key with
  | nil => rfl
  | cons c key ih =>
    have hdigits : ¬ digit 1 = digit 0 := by decide
    rw [token_cons]
    split
    · rename_i hc
      simp [unescape, ih, hc]
    · rename_i hc
      split
      · rename_i hslash
        simp [unescape, ih, hdigits, hslash]
      · conv => lhs; unfold unescape
        simp [ih, hc]

theorem token_injective : Function.Injective token := by
  intro key key' h
  have hkey := unescape_token key
  rw [h, unescape_token] at hkey
  exact (Option.some.inj hkey).symm

theorem slash_notMem_writeNat (n : Nat) : slash ∉ writeNat n := by
  intro h
  have hdigit := (whole_writeNat n).1.2 slash h
  cases hdigit

theorem readIndex_writeNat (n : Nat) : readIndex (writeNat n) = some n := by
  obtain ⟨⟨hne, hdigits⟩, hzero⟩ := whole_writeNat n
  have hread := natOf_writeNat n
  obtain ⟨c, rest, heq⟩ := List.exists_cons_of_ne_nil hne
  rw [heq] at hdigits hzero hread ⊢
  have hfirst : c = digit 0 → rest = [] := fun hc => (List.cons.inj (hzero (by rw [hc]; rfl))).2
  rw [readIndex, if_pos ⟨List.all_eq_true.mpr hdigits, hfirst⟩, hread]

theorem writeNat_injective : Function.Injective writeNat := by
  intro n m h
  have hn := natOf_writeNat n
  rw [h, natOf_writeNat] at hn
  exact hn.symm

theorem Step.slash_notMem_text (step : Step) : slash ∉ step.text := by
  cases step with
  | key k => exact slash_notMem_token k
  | index n => exact slash_notMem_writeNat n

/-! ### Pointers -/

/-- The tokens of a pointer are read off it. -/
theorem splitOn_append_pointer {t : Text} (ht : slash ∉ t) (path : List Step) :
    (t ++ pointer path).splitOn slash = t :: path.map Step.text := by
  induction path generalizing t with
  | nil =>
    rw [pointer, List.flatMap_nil, List.append_nil, List.splitOn_eq_singleton ht]
    rfl
  | cons step path ih =>
    rw [pointer, List.flatMap_cons, List.cons_append, List.splitOn_append_cons_self_of_not_mem ht]
    show t :: (step.text ++ pointer path).splitOn slash = _
    rw [ih step.slash_notMem_text, List.map_cons]

theorem splitOn_pointer (path : List Step) : (pointer path).splitOn slash = [] :: path.map Step.text :=
  splitOn_append_pointer List.not_mem_nil path

/-- Things with different heads, each with different tails, are different. -/
theorem nodup_flatMap_cons {α β : Type} {l : List α} {head : α → β} {tails : α → List (List β)} (hheads : (l.map head).Nodup)
    (htails : ∀ a ∈ l, (tails a).Nodup) : (l.flatMap fun a => (tails a).map (head a :: ·)).Nodup := by
  rw [List.nodup_flatMap]
  refine ⟨fun a ha => (htails a ha).map fun _ _ h => (List.cons.inj h).2, ?_⟩
  rw [List.Nodup, List.pairwise_map] at hheads
  refine hheads.imp fun hne => ?_
  intro s hs hs'
  obtain ⟨t, -, rfl⟩ := List.mem_map.mp hs
  obtain ⟨t', -, heq⟩ := List.mem_map.mp hs'
  exact hne (List.cons.inj heq).1.symm

/-- The tokens on the way to each leaf. -/
def tokens (v : JsonValue φ) : List (List Text) := (leaves v).map fun leaf => leaf.1.map Step.text

theorem map_under (step : Step) (leaves : List (Leaf φ)) : (under step leaves).map (fun leaf => leaf.1.map Step.text) =
    (leaves.map fun leaf => leaf.1.map Step.text).map (step.text :: ·) := by
  rw [under, List.map_map, List.map_map]
  rfl

theorem tokens_array {items : List (JsonValue φ)} (h : items ≠ []) :
    tokens (.array items) = items.zipIdx.flatMap fun item => (tokens item.1).map (writeNat item.2 :: ·) := by
  rw [tokens, leaves_array h, List.map_flatMap]
  exact List.flatMap_congr fun item _ => map_under (.index item.2) (leaves item.1)

theorem tokens_object {fields : List (Text × JsonValue φ)} (h : fields ≠ []) :
    tokens (.object fields) = (byKey fields).flatMap fun field => (tokens field.2).map (token field.1 :: ·) := by
  rw [tokens, leaves_object h, List.map_flatMap]
  exact List.flatMap_congr fun field _ => map_under (.key field.1) (leaves field.2)

theorem nodup_tokens {v : JsonValue φ} (h : v.HasUniqueKeys) : (tokens v).Nodup := by
  induction v using JsonValue.induction with
  | null => exact List.nodup_singleton _
  | bool b => exact List.nodup_singleton _
  | int n => exact List.nodup_singleton _
  | float x => exact List.nodup_singleton _
  | string s => exact List.nodup_singleton _
  | array items ih =>
    obtain ⟨-, hitems⟩ := (JsonValue.every_array _).mp h
    by_cases hne : items = []
    · subst hne
      exact List.nodup_singleton _
    · rw [tokens_array hne]
      refine nodup_flatMap_cons ?_ fun item hitem => ?_
      · have hindices : items.zipIdx.map (fun item => writeNat item.2) = (List.range' 0 items.length).map writeNat := by
          rw [← List.zipIdx_map_snd, List.map_map]
          rfl
        rw [hindices]
        exact (List.nodup_range').map writeNat_injective
      · have hmem := List.fst_mem_of_mem_zipIdx hitem
        exact ih item.1 hmem (hitems item.1 hmem)
  | object fields ih =>
    obtain ⟨hkeys, hfields⟩ := (JsonValue.every_object _).mp h
    by_cases hne : fields = []
    · subst hne
      exact List.nodup_singleton _
    · rw [tokens_object hne]
      refine nodup_flatMap_cons ?_ fun field hfield => ?_
      · have hperm : ((byKey fields).map Prod.fst).Perm (fields.map Prod.fst) := (List.perm_insertionSort _ fields).map _
        have hsorted := (hperm.nodup_iff.mpr (of_decide_eq_true hkeys)).map token_injective
        rwa [List.map_map] at hsorted
      · have hmem := (List.mem_insertionSort _).mp hfield
        exact ih field hmem (hfields field hmem)

/-- **No two leaves have the same pointer.** -/
theorem nodup_pointers {v : JsonValue φ} (h : v.HasUniqueKeys) : ((leaves v).map fun leaf => pointer leaf.1).Nodup := by
  have hback : ((leaves v).map fun leaf => pointer leaf.1).map (fun s => (s.splitOn slash).tail) = tokens v := by
    rw [List.map_map]
    refine List.map_congr_left fun leaf _ => ?_
    show ((pointer leaf.1).splitOn slash).tail = _
    rw [splitOn_pointer, List.tail_cons]
  have hnodup := nodup_tokens h
  rw [← hback] at hnodup
  exact hnodup.of_map _

/-- **A leaf's pointer leads to it.** -/
theorem resolve_pointer {v : JsonValue φ} (h : v.HasUniqueKeys) : ∀ leaf ∈ leaves v, resolve (pointer leaf.1) v = some leaf.2 := by
  have hsplit : ∀ leaf : Leaf φ, resolve (pointer leaf.1) v = resolveTokens (leaf.1.map Step.text) v := by
    intro leaf
    rw [resolve, splitOn_pointer]
  suffices hall : ∀ leaf ∈ leaves v, resolveTokens (leaf.1.map Step.text) v = some leaf.2 by
    intro leaf hleaf
    rw [hsplit, hall leaf hleaf]
  clear hsplit
  have hself : ∀ v : JsonValue φ, ∀ leaf ∈ [(([] : List Step), v)], resolveTokens (leaf.1.map Step.text) v = some leaf.2 := by
    intro v leaf hleaf
    rw [List.mem_singleton.mp hleaf]
    rfl
  induction v using JsonValue.induction with
  | null => exact hself _
  | bool b => exact hself _
  | int n => exact hself _
  | float x => exact hself _
  | string s => exact hself _
  | array items ih =>
    obtain ⟨-, hitems⟩ := (JsonValue.every_array _).mp h
    by_cases hne : items = []
    · subst hne
      exact hself _
    · intro leaf hleaf
      rw [leaves_array hne] at hleaf
      obtain ⟨item, hitem, hleaf⟩ := List.mem_flatMap.mp hleaf
      obtain ⟨leaf', hleaf', rfl⟩ := List.mem_map.mp hleaf
      have hget := List.mem_zipIdx_iff_getElem?.mp hitem
      have hmem := List.fst_mem_of_mem_zipIdx hitem
      have hrest := ih item.1 hmem (hitems item.1 hmem) leaf' hleaf'
      simp [resolveTokens, Step.text, readIndex_writeNat, hget, hrest]
  | object fields ih =>
    obtain ⟨hkeys, hfields⟩ := (JsonValue.every_object _).mp h
    by_cases hne : fields = []
    · subst hne
      exact hself _
    · intro leaf hleaf
      rw [leaves_object hne] at hleaf
      obtain ⟨field, hfield, hleaf⟩ := List.mem_flatMap.mp hleaf
      obtain ⟨leaf', hleaf', rfl⟩ := List.mem_map.mp hleaf
      have hmem := (List.mem_insertionSort _).mp hfield
      have hfind := JsonValue.find?_of_mem (of_decide_eq_true hkeys) hmem
      have hrest := ih field hmem (hfields field hmem) leaf' hleaf'
      simp [resolveTokens, Step.text, unescape_token, hfind, hrest]

/-- Whether a value has nothing in it. -/
def isLeaf : JsonValue φ → Bool
  | .array (_ :: _) => false
  | .object (_ :: _) => false
  | _ => true

theorem leaves_of_isLeaf {v : JsonValue φ} (h : isLeaf v = true) : leaves v = [([], v)] := by
  cases v with
  | array items =>
    cases items with
    | nil => rfl
    | cons v rest => cases h
  | object fields =>
    cases fields with
    | nil => rfl
    | cons field rest => cases h
  | _ => rfl

theorem isLeaf_of_mem {v : JsonValue φ} : ∀ leaf ∈ leaves v, isLeaf leaf.2 = true := by
  have hself : ∀ {v : JsonValue φ}, isLeaf v = true → ∀ leaf ∈ leaves v, isLeaf leaf.2 = true := by
    intro v hv leaf hleaf
    rw [leaves_of_isLeaf hv, List.mem_singleton] at hleaf
    exact hleaf ▸ hv
  induction v using JsonValue.induction with
  | null => exact hself rfl
  | bool b => exact hself rfl
  | int n => exact hself rfl
  | float x => exact hself rfl
  | string s => exact hself rfl
  | array items ih =>
    by_cases hne : items = []
    · exact hself (hne ▸ rfl)
    · intro leaf hleaf
      rw [leaves_array hne] at hleaf
      obtain ⟨item, hitem, hleaf⟩ := List.mem_flatMap.mp hleaf
      obtain ⟨leaf', hleaf', rfl⟩ := List.mem_map.mp hleaf
      exact ih item.1 (List.fst_mem_of_mem_zipIdx hitem) leaf' hleaf'
  | object fields ih =>
    by_cases hne : fields = []
    · exact hself (hne ▸ rfl)
    · intro leaf hleaf
      rw [leaves_object hne] at hleaf
      obtain ⟨field, hfield, hleaf⟩ := List.mem_flatMap.mp hleaf
      obtain ⟨leaf', hleaf', rfl⟩ := List.mem_map.mp hleaf
      exact ih field ((List.mem_insertionSort _).mp hfield) leaf' hleaf'

/-- The leaves of a container stand below it. -/
theorem path_ne_nil {v : JsonValue φ} (h : isLeaf v = false) : ∀ leaf ∈ leaves v, leaf.1 ≠ [] := by
  have hunder : ∀ {step : Step} {leaves : List (Leaf φ)}, ∀ leaf ∈ under step leaves, leaf.1 ≠ [] := by
    intro step leaves leaf hleaf
    obtain ⟨leaf', -, rfl⟩ := List.mem_map.mp hleaf
    exact List.cons_ne_nil _ _
  intro leaf hleaf
  cases v with
  | array items =>
    have hne : items ≠ [] := by
      intro hnil
      subst hnil
      cases h
    rw [leaves_array hne] at hleaf
    obtain ⟨item, -, hleaf⟩ := List.mem_flatMap.mp hleaf
    exact hunder leaf hleaf
  | object fields =>
    have hne : fields ≠ [] := by
      intro hnil
      subst hnil
      cases h
    rw [leaves_object hne] at hleaf
    obtain ⟨field, -, hleaf⟩ := List.mem_flatMap.mp hleaf
    exact hunder leaf hleaf
  | _ => cases h

end Lib.JsonPointer
