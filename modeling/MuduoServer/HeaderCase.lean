import MuduoServer.RequestText

/-!
# The case of header names

Header names are stored and looked up byte by byte. A stream whose names change the case of
their letters is read alike as long as the two names that the server looks up,
`Content-Length` and `Connection`, are spelled as it spells them in both or in neither.
-/
namespace MuduoServer

open StdString HttpContent

/-- The same bytes but for the case of letters. -/
def SameName (a b : Bytes) : Prop := a.map toLower = b.map toLower

instance (a b : Bytes) : Decidable (SameName a b) := inferInstanceAs (Decidable (_ = _))

/-- The names that the server looks up. -/
def knownNames : List Bytes := [ascii "Content-Length", ascii "Connection"]

theorem toLower_mark : ∀ c : UInt8, (toLower c = 58 ↔ c = 58) ∧ (toLower c = 32 ↔ c = 32) := by
  decide +kernel

theorem SameName.length {a b : Bytes} (h : SameName a b) : a.length = b.length := by
  simpa using congrArg List.length h

/-- A search for bytes that have no case. -/
theorem findFrom_map {f : UInt8 → UInt8} {sub : Bytes} (hsub : ∀ c, ∀ d ∈ sub, f c = d ↔ c = d)
    (s : Bytes) :
    findFrom sub (s.map f) = findFrom sub s := by
  have hprefix : ∀ (sub' s : Bytes), (∀ d ∈ sub', d ∈ sub) → (sub' <+: s.map f ↔ sub' <+: s) := by
    intro sub' s hmem
    induction sub' generalizing s with
    | nil => simp
    | cons d sub' ih =>
      cases s with
      | nil => simp
      | cons c s =>
        rw [List.map_cons, List.cons_prefix_cons, List.cons_prefix_cons,
          ih s fun e he => hmem e (List.mem_cons_of_mem _ he), eq_comm,
            hsub c d (hmem d List.mem_cons_self),
          eq_comm]
  induction s with
  | nil => rfl
  | cons c s ih =>
    have hhead := hprefix sub (c :: s) fun _ hd => hd
    rw [List.map_cons] at hhead ⊢
    simp only [findFrom, ih, hhead]

/-! ## Header lines -/

namespace HttpContent

/-- The name of a header line with its line feed. -/
def fieldName (line : Bytes) : Option Bytes := (headerField line.dropLast).map Prod.fst

/-- The line `h'` is the header line `h` with letters of its name in another case. -/
def RecasedLine (h h' : Bytes) : Prop :=
  ∃ key key' value rest, h = key ++ rest ∧ h' = key' ++ rest ∧
    headerField h.dropLast = some (key, value) ∧
    SameName key key'

theorem headerText_append {key m : Bytes} (hm : m ≠ []) :
    headerText (key ++ m) = key ++ headerText m := by
  unfold headerText
  rw [List.getLast?_append_of_ne_nil _ hm, List.dropLast_append_of_ne_nil hm]
  split <;> rfl

theorem length_headerText_le (l : Bytes) : (headerText l).length ≤ l.length := by
  unfold headerText
  split
  · rw [List.length_dropLast]
    exact Nat.sub_le _ _
  · exact Nat.le_refl _

/-- What the parser reads in a header line whose name is spelled differently. -/
theorem headerField_recased {key key' value rest : Bytes}
    (hfield : headerField (key ++ rest).dropLast = some (key, value)) (hname : SameName key key') :
    headerField (key' ++ rest).dropLast = some (key', value) := by
  obtain ⟨pos, hpos, hsplit⟩ := Option.map_eq_some_iff.mp hfield
  obtain ⟨hkey, hvalue⟩ := Prod.mk.inj hsplit
  have hle := find_le _ _ _ hpos
  have htwo : (ascii ": ").length = 2 := by decide
  have hlen : key.length = pos := by
    rw [← hkey, List.length_take, Nat.min_eq_left (by omega)]
  have hroom := length_headerText_le (key ++ rest).dropLast
  simp only [List.length_dropLast, List.length_append] at hroom
  have hfar : 2 ≤ rest.dropLast.length := by
    rw [List.length_dropLast]
    omega
  have hm : rest.dropLast ≠ [] := List.ne_nil_of_length_pos (by omega)
  have hrest : rest ≠ [] := fun hnil => hm (by rw [hnil]; rfl)
  rw [List.dropLast_append_of_ne_nil hrest, headerText_append hm] at hpos hvalue
  have hfind : find (key' ++ headerText rest.dropLast) (ascii ": ") 0 = some pos := by
    have hsub : ∀ c : UInt8, ∀ d ∈ ascii ": ", toLower c = d ↔ c = d := by
      intro c d hd
      rcases List.mem_pair.mp (show d ∈ [58, 32] from hd) with rfl | rfl
      · exact (toLower_mark c).1
      · exact (toLower_mark c).2
    have hlower : (key' ++ headerText rest.dropLast).map toLower =
        (key ++ headerText rest.dropLast).map toLower := by
      rw [List.map_append, List.map_append, hname.symm]
    rw [← hpos]
    simp only [find, List.drop_zero]
    rw [← findFrom_map hsub, hlower, findFrom_map hsub]
  have hdrop : ∀ k : Bytes, k.length = pos →
      (k ++ headerText rest.dropLast).drop (pos + 2) = (headerText rest.dropLast).drop 2 := by
    intro k hk
    rw [← List.drop_drop, List.drop_left' hk]
  have hlen' : key'.length = pos := hname.length ▸ hlen
  rw [List.dropLast_append_of_ne_nil hrest, HttpContent.headerField, headerText_append hm, hfind,
    Option.map_some,
    List.take_left' hlen', hdrop key' hlen', ← hdrop key hlen, hvalue]

theorem toLower_newline : ∀ c : UInt8, toLower c = newline ↔ c = newline := by decide +kernel

theorem isLine_sameName {h h' : Bytes} (hline : IsLine h) (hname : SameName h h') : IsLine h' := by
  obtain ⟨l, hl, rfl⟩ := hline
  obtain ⟨l', last, rfl, hl', hlast⟩ := List.map_eq_append_iff.mp (hname.symm.trans List.map_append)
  obtain ⟨c, rfl, hc⟩ := List.map_eq_singleton_iff.mp hlast
  have hnewline : ∀ u : Bytes, newline ∈ u ↔ newline ∈ u.map toLower := by
    intro u
    simp only [List.mem_map, toLower_newline, exists_eq_right]
  refine ⟨l', ?_, by rw [(toLower_newline c).mp hc]⟩
  rwa [hnewline, hl', ← hnewline]

/-- A recased header line is a header line of the same length. -/
theorem RecasedLine.isHeader {h h' : Bytes} (hcase : RecasedLine h h') (hheader : IsHeader h) :
    IsHeader h' ∧ h'.length = h.length := by
  obtain ⟨key, key', value, rest, rfl, rfl, hfield, hname⟩ := hcase
  have hfield' := headerField_recased hfield hname
  have hlen : (key' ++ rest).length = (key ++ rest).length := by
    rw [List.length_append, List.length_append, hname.length]
  refine ⟨⟨?_, ?_, by rw [hfield']; rfl⟩, hlen⟩
  · have hlower : SameName (key ++ rest) (key' ++ rest) := by
      rw [SameName, List.map_append, List.map_append, hname]
    exact isLine_sameName hheader.isLine hlower
  · intro hblank
    rcases blankLine_eq hblank with he | he
    · rw [he] at hfield'
      cases hfield'
    · rw [he] at hfield'
      cases hfield'

end HttpContent

/-! ## Requests -/

namespace RequestText

/-- A request that the parser takes in full, with names that are distinct ignoring case. -/
structure WellFormed (r : RequestText) : Prop extends Readable r where
  names : (r.headers.map fun h => (fieldName h).map (List.map toLower)).Nodup

instance (r : RequestText) : Decidable r.WellFormed :=
  decidable_of_iff (r.Readable ∧
    (r.headers.map fun h => (fieldName h).map (List.map toLower)).Nodup)
    ⟨fun ⟨h, hnames⟩ => ⟨h, hnames⟩, fun h => ⟨h.toReadable, h.names⟩⟩

/-- `r'` is `r` with letters of its header names in another case. -/
structure Recased (r r' : RequestText) : Prop where
  line : r'.line = r.line
  headers : List.Forall₂ RecasedLine r.headers r'.headers
  blank : r'.blank = r.blank
  body : r'.body = r.body

/-- A header has one of the known names in both requests or in neither. -/
def SpellsAlike (r r' : RequestText) : Prop :=
  List.Forall₂ (fun h h' => ∀ name ∈ knownNames, fieldName h = some name ↔
    fieldName h' = some name) r.headers r'.headers

end RequestText

/-- Two parsed requests that differ at most in the case of their header names. -/
structure SameButNames (r r' : HttpRequest) : Prop where
  others : r' = { r with headers := r'.headers }
  headers : List.Forall₂ (fun e e' => SameName e.1 e'.1 ∧
    e.2 = e'.2) r.headers.entries r'.headers.entries

/-- The known names have the same values, too. -/
structure Alike (r r' : HttpRequest) : Prop extends SameButNames r r' where
  known : ∀ name ∈ knownNames, r.headers.lookup name = r'.headers.lookup name

theorem mem_right {α β : Type} {R : α → β → Prop} {as : List α} {bs : List β}
    (h : List.Forall₂ R as bs) {b : β} (hb : b ∈ bs) : ∃ a ∈ as, R a b := by
  induction h with
  | nil => cases hb
  | cons hR _ ih =>
    rcases List.mem_cons.mp hb with rfl | hb
    · exact ⟨_, List.mem_cons_self, hR⟩
    · obtain ⟨a, ha, hR⟩ := ih hb
      exact ⟨a, List.mem_cons_of_mem _ ha, hR⟩

variable {r r' : HttpRequest}

theorem Alike.has (h : Alike r r') {name : Bytes} (hname : name ∈ knownNames) :
    r.hasHeader name = r'.hasHeader name := by
  have hlookup := h.known name hname
  simp only [HttpRequest.hasHeader, ← AList.lookup_isSome, hlookup]

theorem Alike.get (h : Alike r r') {name : Bytes} (hname : name ∈ knownNames) :
    r.getHeader name = r'.getHeader name := by
  simp only [HttpRequest.getHeader, h.known name hname]

theorem Alike.bodySize (h : Alike r r') : r.bodySize = r'.bodySize := by
  have hname : ascii "Content-Length" ∈ knownNames := List.mem_cons_self
  simp only [HttpRequest.bodySize, h.has hname, h.get hname]

theorem Alike.isCose (h : Alike r r') : r.isCose = r'.isCose := by
  have hname : ascii "Connection" ∈ knownNames := List.mem_cons_of_mem _ List.mem_cons_self
  simp only [HttpRequest.isCose, h.has hname, h.get hname]

theorem Alike.refl (r : HttpRequest) : Alike r r :=
  ⟨⟨rfl, List.forall₂_same.mpr fun _ _ => ⟨rfl, rfl⟩⟩, fun _ _ => rfl⟩

theorem notMem_headers {key : Bytes} (hnew : ∀ e ∈ r.headers.entries, ¬SameName e.1 key) :
    key ∉ r.headers := by
  intro hmem
  obtain ⟨e, he, heq⟩ := List.mem_map.mp (AList.mem_keys.mp hmem)
  exact hnew e he (by rw [heq]; rfl)

theorem entries_setHeader {key : Bytes} (value : Bytes)
    (hnew : ∀ e ∈ r.headers.entries, ¬SameName e.1 key) :
    (r.setHeader key value).headers.entries = ⟨key, value⟩ :: r.headers.entries := by
  have hnot := notMem_headers hnew
  simp only [HttpRequest.setHeader, insertNew, if_neg hnot, AList.entries_insert_of_notMem hnot]

/-- A header under a name that neither request has yet. -/
theorem Alike.setHeader (h : Alike r r') {key key' value : Bytes} (hname : SameName key key')
    (hknown : ∀ name ∈ knownNames, key = name ↔ key' = name)
    (hnew : ∀ e ∈ r.headers.entries, ¬SameName e.1 key) :
    Alike (r.setHeader key value) (r'.setHeader key' value) := by
  have hnew' : ∀ e' ∈ r'.headers.entries, ¬SameName e'.1 key' := by
    intro e' he' hsame'
    obtain ⟨e, he, hsame, -⟩ : ∃ e ∈ r.headers.entries, SameName e.1 e'.1 ∧ e.2 = e'.2 :=
      mem_right h.headers he'
    exact hnew e he (hsame.trans (hsame'.trans hname.symm))
  have hnot := notMem_headers hnew
  have hnot' := notMem_headers hnew'
  refine ⟨⟨?_, ?_⟩, ?_⟩
  · rw [HttpRequest.setHeader, h.others]
    rfl
  · rw [entries_setHeader value hnew, entries_setHeader value hnew']
    exact .cons ⟨hname, rfl⟩ h.headers
  · intro name hmem
    simp only [HttpRequest.setHeader, lookup_insertNew _ _ _ _ hnot, lookup_insertNew _ _ _ _ hnot',
      h.known name hmem]
    have hiff := hknown name hmem
    by_cases he : name = key
    · rw [if_pos he, if_pos (hiff.mp he.symm).symm]
    · rw [if_neg he, if_neg fun he' => he (hiff.mpr he'.symm).symm]

/-- The headers of two requests, read one after the other. -/
theorem foldl_alike {hs hs' : List Bytes} (hcase : List.Forall₂ RecasedLine hs hs')
    (hspell : List.Forall₂ (fun h h' => ∀ name ∈ knownNames, fieldName h = some name ↔
      fieldName h' = some name) hs hs')
      (hnames : (hs.map fun h => (fieldName h).map (List.map toLower)).Nodup) (h : Alike r r')
      (hnew : ∀ line ∈ hs, ∀ e ∈ r.headers.entries, (fieldName line).map (List.map toLower) ≠
        some (e.1.map toLower)) :
    Alike (hs.foldl HttpRequest.addHeader r) (hs'.foldl HttpRequest.addHeader r') := by
  induction hcase generalizing r r' with
  | nil => exact h
  | @cons line line' hs hs' hline hcase ih =>
    obtain ⟨hspellLine, hspells⟩ := List.forall₂_cons.mp hspell
    obtain ⟨hnot, hdistinct⟩ := List.nodup_cons.mp hnames
    obtain ⟨key, key', value, rest, rfl, rfl, hfield, hname⟩ := hline
    have hfield' := headerField_recased hfield hname
    have hkey : fieldName (key ++ rest) = some key := by rw [fieldName, hfield]; rfl
    have hkey' : fieldName (key' ++ rest) = some key' := by rw [fieldName, hfield']; rfl
    have hadd : r.addHeader (key ++ rest) = r.setHeader key value := by
      rw [HttpRequest.addHeader, hfield]
    have hadd' : r'.addHeader (key' ++ rest) = r'.setHeader key' value := by
      rw [HttpRequest.addHeader, hfield']
    have hfresh : ∀ e ∈ r.headers.entries, ¬SameName e.1 key := by
      intro e he hsame
      refine hnew _ List.mem_cons_self e he ?_
      rw [hkey, Option.map_some, hsame]
    have hknown : ∀ name ∈ knownNames, key = name ↔ key' = name := by
      intro name hmem
      simpa only [hkey, hkey', Option.some.injEq] using hspellLine name hmem
    rw [List.foldl_cons, List.foldl_cons, hadd, hadd']
    refine ih hspells hdistinct (h.setHeader hname hknown hfresh) ?_
    intro other hother e he heq
    have hentries : (r.setHeader key value).headers.entries = ⟨key, value⟩ :: r.headers.entries :=
      entries_setHeader value hfresh
    rw [hentries] at he
    rcases List.mem_cons.mp he with rfl | he
    · exact hnot (List.mem_map.mpr ⟨other, hother, heq.trans (congrArg (Option.map (List.map toLower)) hkey.symm)⟩)
    · exact hnew other (List.mem_cons_of_mem _ hother) e he heq

theorem RequestText.Recased.alike {r r' : RequestText} (hwell : r.WellFormed) (hcase : r.Recased r')
    (hspell : r.SpellsAlike r') :
    Alike r.parsed r'.parsed := by
  have hempty : (HttpContent.fresh.parseHttpLine r.line).1.request.headers = ∅ := by
    rcases parseHttpLine_cases HttpContent.fresh r.line with ⟨c', hp, -, hh, -⟩ |
      ⟨c', hp, -, hh, -⟩ <;> rw [hp] <;> exact hh
  have hfold := foldl_alike hcase.headers hspell hwell.names
    (Alike.refl (HttpContent.fresh.parseHttpLine r.line).1.request)
    (by rw [hempty]; exact fun _ _ _ he => nomatch he)
  refine ⟨⟨?_, ?_⟩, ?_⟩
  · rw [RequestText.parsed, RequestText.parsed, hcase.line, hcase.body, hfold.others]
  · rw [RequestText.parsed, RequestText.parsed, hcase.line]
    exact hfold.headers
  · rw [RequestText.parsed, RequestText.parsed, hcase.line]
    exact hfold.known

/-! ## The same request with recased names -/

namespace RequestText

variable {r r' : RequestText}

theorem Recased.headerLengths (hwell : r.WellFormed) (hcase : r.Recased r') :
    r'.headers.map List.length = r.headers.map List.length := by
  have hall : ∀ h ∈ r.headers, IsHeader h := hwell.headers
  have hlines := hcase.headers
  generalize r.headers = hs at hall hlines ⊢
  generalize r'.headers = hs' at hlines ⊢
  induction hlines with
  | nil => rfl
  | cons hline _ ih =>
    rw [List.map_cons, List.map_cons, (hline.isHeader (hall _ List.mem_cons_self)).2,
      ih fun h hh => hall h (List.mem_cons_of_mem _ hh)]

theorem Recased.lineLengths (hwell : r.WellFormed) (hcase : r.Recased r') :
    r'.lineLengths = r.lineLengths := by
  simp only [RequestText.lineLengths, List.cons_append, List.map_cons, List.map_append,
    hcase.line, hcase.blank,
    hcase.headerLengths hwell]

theorem length_text (r : RequestText) : r.text.length = r.lineLengths.sum + r.body.length := by
  simp only [text, RequestText.lineLengths, List.length_append, List.length_flatten,
    List.cons_append, List.map_cons, List.map_append,
    List.sum_cons, List.sum_append, List.map_nil, List.sum_nil]
  omega

theorem Recased.length (hwell : r.WellFormed) (hcase : r.Recased r') :
    r'.text.length = r.text.length := by
  rw [length_text, length_text, hcase.lineLengths hwell, hcase.body]

theorem Recased.wellFormed (hwell : r.WellFormed) (hcase : r.Recased r')
    (hspell : r.SpellsAlike r') : r'.WellFormed where
  line := hcase.line ▸ hwell.line
  lineOk := hcase.line ▸ hwell.lineOk
  headers h' hh' := by
    obtain ⟨h, hh, hline⟩ := mem_right hcase.headers hh'
    exact (hline.isHeader (hwell.headers h hh)).1
  short h' hh' := by
    rcases List.mem_cons.mp hh' with rfl | hh'
    · exact hcase.line ▸ hwell.short _ List.mem_cons_self
    · obtain ⟨h, hh, hline⟩ := mem_right hcase.headers hh'
      rw [(hline.isHeader (hwell.headers h hh)).2]
      exact hwell.short h (List.mem_cons_of_mem _ hh)
  names := by
    have hnames := hwell.names
    have hlines := hcase.headers
    have hsame : r'.headers.map (fun h => (fieldName h).map (List.map toLower)) =
        r.headers.map (fun h => (fieldName h).map (List.map toLower)) := by
      generalize r.headers = hs at hlines
      generalize r'.headers = hs' at hlines
      induction hlines with
      | nil => rfl
      | cons hline _ ih =>
        obtain ⟨key, key', value, rest, rfl, rfl, hfield, hname⟩ := hline
        rw [List.map_cons, List.map_cons, ih, fieldName, fieldName,
          headerField_recased hfield hname, hfield]
        exact congrArg (some · :: _) hname.symm
    rw [hsame]
    exact hnames
  blank := hcase.blank ▸ hwell.blank
  body := by
    rw [hcase.body, ← (hcase.alike hwell hspell).bodySize]
    exact hwell.body

end RequestText
end MuduoServer
