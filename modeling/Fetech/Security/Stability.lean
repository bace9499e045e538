import Fetech.Security.NormalForm

/-! Where normalising a URL once more changes nothing (`fetech/security.py`, `normalize_url`,
and `fetech/auth.py`, `canonical_origin`).

White space is stripped before the fragment goes, so what stood before the fragment may end
with some; and the host codec may leave labels, brackets or nothing at all where the next
reading expects a host. In every other case the normal form is read part by part as it was
written. -/
namespace Fetech
open Lib.Url

/-- Nothing in a target is left for a second normalisation: no white space where it ends
without its fragment, and a host that is one. -/
structure Steady (c : Codecs) (parts : SplitResult) (encoded : List Char) : Prop where
  tail : ∀ ch ∈ (parts.path ++ withQuery parts.query).getLast?, isSpace ch = false
  host : canonicalHost c encoded ≠ []
  labels : labelsOk (canonicalHost c encoded) = true
  brackets : ReadsBack c.toTables (canonicalHost c encoded)

theorem length_rejoined_le (s : List Char) : (before '?' s ++ withQuery (after '?' s)).length ≤ s.length := by
  by_cases hmark : '?' ∈ s
  · have hsplit := congrArg List.length (eq_before_after hmark)
    rw [List.length_append, List.length_cons] at hsplit
    have hquery : (withQuery (after '?' s)).length ≤ (after '?' s).length + 1 := by
      unfold withQuery
      split
      · exact Nat.zero_le _
      · exact Nat.le_refl _
    rw [List.length_append]
    omega
  · rw [(before_of_notMem hmark).1, (before_of_notMem hmark).2, withQuery_nil, List.append_nil]

namespace ReadAs
variable {c : Codecs} {target : String} {parts : SplitResult} {encoded : List Char} {port : Option Nat}

theorem tail_iff : (∀ ch ∈ (parts.path ++ withQuery parts.query).getLast?, isSpace ch = false) ↔
    ((normalForm c parts encoded port).path ++ withQuery parts.query).rdropWhile isSpace =
      (normalForm c parts encoded port).path ++ withQuery parts.query := by
  have hlast : ∀ s : List Char, s.rdropWhile isSpace = s ↔ ∀ ch ∈ s.getLast?, isSpace ch = false := by
    intro s
    rw [List.rdropWhile_eq_self_iff]
    constructor
    · intro h ch hch
      obtain ⟨hne, rfl⟩ := List.mem_getLast?_eq_getLast hch
      simpa using h hne
    · intro h hne
      simpa using h _ (List.getLast?_eq_some_getLast hne)
  rw [hlast]
  by_cases hpath : parts.path = []
  · have hnormal : (normalForm c parts encoded port).path = ['/'] := if_pos (by simp [hpath])
    rw [hnormal, hpath, List.nil_append, List.singleton_append]
    cases hquery : withQuery parts.query with
    | nil =>
      refine ⟨fun _ ch hch => ?_, fun _ ch hch => ?_⟩
      · cases hch
        decide
      · cases hch
    | cons ch rest => rw [List.getLast?_cons_cons]
  · have hnormal : (normalForm c parts encoded port).path = parts.path := if_neg (by simpa using hpath)
    rw [hnormal]

section
variable (hc : c.Idna) (h : ReadAs c target parts encoded port)
include hc h

/-- A steady target is read in its normal form as what it is there. -/
theorem again (hsteady : Steady c parts encoded) : ReadAs c (String.ofList (urlunsplit (normalForm c parts encoded port)))
    (normalForm c parts encoded port) (canonicalHost c encoded) (shownPort parts.scheme port) := by
  have hrooted := h.rooted hc
  obtain ⟨hok, hname, hport⟩ := h.readsBack_read hc hsteady.brackets
  refine ⟨?_, h.scheme, (afterLast_authority (h.at_notMem_host hc) rfl).2, ?_, ?_, hport⟩
  · rw [String.toList_ofList]
    have hstrip : strip (urlunsplit (normalForm c parts encoded port)) = urlunsplit (normalForm c parts encoded port) := by
      rw [hrooted.toAbsolute.urlunsplit_eq, hrooted.scheme.strip_rest _ hrooted.toAbsolute.head_rest]
      exact congrArg (fun rest => _ ++ ':' :: '/' :: '/' :: (_ ++ rest)) (tail_iff.mp hsteady.tail)
    rw [hstrip, h.urlsplit_url hc, hok]
    rfl
  · rw [hname]
    exact hsteady.host
  · rw [hname, hc.ofAscii (h.host_lower hc).1, hsteady.labels]
    rfl

/-- The normal form of a normal form that is read as what it is. -/
theorem normalForm_again : normalForm c (normalForm c parts encoded port) (canonicalHost c encoded)
    (shownPort parts.scheme port) = normalForm c parts encoded port := by
  obtain ⟨hascii, hlower⟩ := h.host_lower hc
  have hhost : canonicalHost c (canonicalHost c encoded) = canonicalHost c encoded := by
    show rstrip '.' (c.lower (canonicalHost c encoded)) = _
    rw [c.lower_ascii _ hascii, hlower]
    exact List.rdropWhile_idempotent _ _
  have hpath : (if (normalForm c parts encoded port).path.isEmpty then ['/'] else (normalForm c parts encoded port).path) =
      (normalForm c parts encoded port).path := by
    refine if_neg fun hempty => ?_
    have hroot := (h.rooted hc).root
    rw [List.isEmpty_iff.mp hempty] at hroot
    cases hroot
  have hport := shownPort_shownPort parts.scheme port
  rw [normalForm, hpath, hhost]
  dsimp only [normalForm]
  rw [hport]

/-- What a second normalisation reads: the authority as it stands, and a path and a query
without the white space at their end. -/
theorem read_again {again : SplitResult} {encoded' : List Char} {port' : Option Nat}
    (h' : ReadAs c (String.ofList (urlunsplit (normalForm c parts encoded port))) again encoded' port') :
    again.netloc = (normalForm c parts encoded port).netloc ∧ bracketsOk c.toTables again.netloc = true ∧
      ((normalForm c again encoded' port').path ++ withQuery again.query).length ≤
        (((normalForm c parts encoded port).path ++ withQuery parts.query).rdropWhile isSpace).length := by
  have hrooted := h.rooted hc
  have hsplit := h'.split
  rw [String.toList_ofList, hrooted.toAbsolute.urlunsplit_eq, hrooted.scheme.strip_rest _ hrooted.toAbsolute.head_rest] at hsplit
  have hpart := List.rdropWhile_prefix isSpace
    ((normalForm c parts encoded port).path ++ withQuery (normalForm c parts encoded port).query)
  have hhead := head_rdropWhile hrooted.toAbsolute.head_rest (p := isSpace) (by decide)
  change _ ∧ _ ∧ _ ≤ (((normalForm c parts encoded port).path ++
    withQuery (normalForm c parts encoded port).query).rdropWhile isSpace).length
  generalize ((normalForm c parts encoded port).path ++
    withQuery (normalForm c parts encoded port).query).rdropWhile isSpace = rest at hsplit hpart hhead ⊢
  have hend : ∀ ch ∈ rest.head?, isNetlocEnd ch = true := by
    intro ch hch
    rw [hhead] at hch
    cases hch
    rfl
  rw [hrooted.scheme.urlsplit_rest _ hrooted.netloc (fun ch hch => hrooted.kept ch (hpart.subset hch)) hend,
    Option.ite_none_right_eq_some, Bool.and_eq_true] at hsplit
  obtain ⟨⟨hok, -⟩, hparts⟩ := hsplit
  have hagain := Option.some.inj hparts
  subst hagain
  refine ⟨rfl, hok, ?_⟩
  have hpath : (normalForm c (splitRest (normalForm c parts encoded port).scheme (normalForm c parts encoded port).netloc
      rest) encoded' port').path = before '?' (before '#' rest) := by
    refine if_neg fun hempty => ?_
    obtain ⟨tail, rfl⟩ := List.head?_eq_some_iff.mp hhead
    simp [splitRest, before] at hempty
  rw [hpath]
  exact (length_rejoined_le _).trans (List.takeWhile_sublist _).length_le

/-- **A second normalisation changes nothing exactly for a steady target.** -/
theorem again_iff : normalizeUrl c (String.ofList (urlunsplit (normalForm c parts encoded port))) =
    some (String.ofList (urlunsplit (normalForm c parts encoded port))) ↔ Steady c parts encoded := by
  constructor
  · intro hagain
    obtain ⟨parts', encoded', port', h', hsame⟩ := normalizeUrl_iff.mp hagain
    have hrooted := h.rooted hc
    have hrooted' := h'.rooted hc
    obtain ⟨hnetloc, hok, hlength⟩ := h.read_again hc h'
    have hscheme : parts.scheme = parts'.scheme := by
      have hsplit := h'.split
      rw [String.toList_ofList, hrooted.toAbsolute.urlunsplit_eq, hrooted.scheme.strip_rest _ hrooted.toAbsolute.head_rest] at hsplit
      exact (hrooted.scheme.urlsplit_scheme _ hsplit).symm
    obtain ⟨hsite, hrest⟩ : _ ∧ (normalForm c parts encoded port).path ++ withQuery parts.query =
        (normalForm c parts' encoded' port').path ++ withQuery parts'.query :=
      hrooted.toAbsolute.urlunsplit_inj hrooted'.toAbsolute hscheme hrooted.slash_notMem hrooted'.slash_notMem
        (String.ofList_injective hsame)
    -- Nothing was stripped, or less would have come out.
    have htail : ((normalForm c parts encoded port).path ++ withQuery parts.query).rdropWhile isSpace =
        (normalForm c parts encoded port).path ++ withQuery parts.query := by
      rw [← hrest] at hlength
      exact (List.rdropWhile_prefix _ _).eq_of_length_le hlength
    obtain hback | ⟨hcolon, -, hsub, hshort⟩ := readsBack_or (p := parts') (h.at_notMem_host hc) hnetloc hok
        (by rw [h'.port]; exact Option.some_ne_none port')
    · have hports : ∀ n ∈ shownPort parts.scheme port, n ≤ 65535 := fun n hn =>
        SplitResult.port_le h.port n (mem_of_mem_shownPort hn)
      obtain ⟨-, hraw, -⟩ := hback.read (h.at_notMem_host hc) hports hnetloc
      obtain ⟨hascii, hlower⟩ := h.host_lower hc
      have hname : parts'.hostname c.toTables = canonicalHost c encoded := by
        rw [← hraw] at hascii hlower
        rw [hostname_ascii _ hascii hlower, hraw]
      refine ⟨tail_iff.mpr htail, hname ▸ h'.hostname, ?_, hback⟩
      have hidna := h'.idna
      rw [hname, hc.ofAscii hascii, Option.ite_none_right_eq_some] at hidna
      exact hidna.1
    · -- Brackets that belong to the host are read, and do not come back.
      exfalso
      obtain ⟨hascii, hlower⟩ := h.host_lower hc
      have hraw := isAscii_mono hascii hsub
      have hsameRaw := asciiLower_eq_self hlower hsub
      have hencoded : encoded' = parts'.rawHost := by
        have hidna := h'.idna
        rw [hostname_ascii _ hraw hsameRaw, hc.ofAscii hraw, Option.ite_none_right_eq_some] at hidna
        exact (Option.some.inj hidna.2).symm
      have hhost : canonicalHost c encoded' <+: parts'.rawHost := by
        rw [hencoded, canonicalHost, c.lower_ascii _ hraw, hsameRaw]
        exact List.rdropWhile_prefix _ _
      have hcolon' : ':' ∉ canonicalHost c encoded' := fun hmem => hcolon (hsub (hhost.subset hmem))
      have hshown : canonicalHost c encoded ++ withPort (shownPort parts.scheme port) =
          canonicalHost c encoded' ++ withPort (shownPort parts'.scheme port') := by
        have hsite' : bracketed (canonicalHost c encoded) ++ withPort (shownPort parts.scheme port) =
            bracketed (canonicalHost c encoded') ++ withPort (shownPort parts'.scheme port') := hsite
        rwa [bracketed_name hcolon, bracketed_name hcolon'] at hsite'
      have hequal := host_inj hcolon hcolon' hshown
      have hle := hhost.length_le
      rw [hequal] at hshort
      omega
  · intro hsteady
    refine normalizeUrl_iff.mpr ⟨_, _, _, h.again hc hsteady, ?_⟩
    rw [h.normalForm_again hc]

end

/-! ### The origin -/

/-- How an origin is put together. -/
theorem origin_text {scheme host : List Char} {port : Option Nat} (h : scheme = "http".toList ∨ scheme = "https".toList) :
    (if (String.ofList scheme = "http" ∧ (port = none ∨ port = some 80)) ∨
        (String.ofList scheme = "https" ∧ (port = none ∨ port = some 443))
      then some (String.ofList scheme ++ "://" ++ String.ofList (bracketed host))
      else some (String.ofList scheme ++ "://" ++ String.ofList (bracketed host) ++ ":" ++ (port.map toString).getD "None")) =
    some (String.ofList (scheme ++ ':' :: '/' :: '/' :: (bracketed host ++ withPort (shownPort scheme port)))) := by
  have htext : ∀ s : String, s = String.ofList s.toList := fun s => String.ofList_toList.symm
  cases port with
  | none =>
    obtain rfl | rfl := h <;> exact congrArg some ((htext _).trans (by simp [shownPort, withPort]))
  | some n =>
    obtain rfl | rfl := h
    · by_cases hn : n = 80
      · simp only [hn]
        exact congrArg some ((htext _).trans (by simp [shownPort, defaultPort, withPort, Option.filter]))
      · rw [if_neg (by simp [hn])]
        exact congrArg some ((htext _).trans (by simp [shownPort, defaultPort, withPort, Option.filter, hn]))
    · by_cases hn : n = 443
      · simp only [hn]
        exact congrArg some ((htext _).trans (by simp [shownPort, defaultPort, withPort, Option.filter]))
      · rw [if_neg (by simp [hn])]
        exact congrArg some ((htext _).trans (by simp [shownPort, defaultPort, withPort, Option.filter, hn]))

/-- The origin of a target that is accepted. -/
theorem canonicalOrigin_eq (h : ReadAs c target parts encoded port) : canonicalOrigin c target =
    some (String.ofList (parts.scheme ++ ':' :: '/' :: '/' ::
      (bracketed (canonicalHost c encoded) ++ withPort (shownPort parts.scheme port)))) := by
  have hhostname : (parts.hostname c.toTables).isEmpty = false := by
    rw [Bool.eq_false_iff, ne_eq, List.isEmpty_iff]
    exact h.hostname
  rw [← origin_text h.scheme]
  simp only [canonicalOrigin, h.split, lower_of_urlsplit h.split, web_iff.mpr h.scheme, h.userinfo, hhostname, h.idna,
    h.port, guard_true, Option.bind_eq_bind, Option.bind_some, Bool.not_false, Option.pure_def, Bool.false_and]
  rfl

theorem canonicalOrigin_again (hc : c.Idna) (h : ReadAs c target parts encoded port) (hsteady : Steady c parts encoded) :
    canonicalOrigin c (String.ofList (urlunsplit (normalForm c parts encoded port))) = canonicalOrigin c target := by
  have hform := h.normalForm_again hc
  have hnetloc : bracketed (canonicalHost c (canonicalHost c encoded)) ++
      withPort (shownPort (normalForm c parts encoded port).scheme (shownPort parts.scheme port)) =
        (normalForm c parts encoded port).netloc := congrArg SplitResult.netloc hform
  rw [(h.again hc hsteady).canonicalOrigin_eq, h.canonicalOrigin_eq, hnetloc]
  rfl

end ReadAs

end Fetech
