import MuStore.Message

namespace MuStore.Protocol

def kvSep : UInt8 := 0x3d

/-- `std::string::find` of one character; `none` is `npos`. -/
def find (s : Bytes) (c : UInt8) : Option ℕ := s.idxOf? c

def substr (s : Bytes) (pos n : ℕ) : Bytes := (s.drop pos).take n

/-- The stripping of one pair of quotes. `front()` of an empty value is no quote.
The length of a lone quote minus two wraps to a huge count, which `substr` cuts
at the end of the string as it cuts the count zero here. -/
def unquote (value : Bytes) : Bytes :=
  if value.head? = some quote ∧ value.getLast? = some quote then
    substr value 1 (value.length - 2)
  else value

/-- One pass of the loop over `pair`: the field and value, or `continue`. -/
def parsePair (pair : Bytes) : Option (Σ _ : Bytes, Bytes) :=
  match find pair kvSep with
  | none => none
  | some pos => some ⟨substr pair 0 pos, unquote (pair.drop (pos + 1))⟩

def addPair (msg : Request) (pair : Bytes) : Request :=
  match parsePair pair with
  | none => msg
  | some e =>
    { msg with fields := msg.fields.insert e.1 e.2, fieldNames := msg.fieldNames ++ [e.1] }

/-- `words isSpace` is the loop `while (iss >> token)`. A failed `iss >> msg.key` leaves
the key empty and the loop without a token. -/
def deserialize (data : Bytes) : Request :=
  let (command, iss) := extract isSpace data
  if command = ascii "SET_FIELDS" then
    let (key, iss) := extract isSpace iss
    (words isSpace iss).foldl addPair ⟨.setFields, key, ∅, []⟩
  else if command = ascii "GETALL" then
    let (key, _) := extract isSpace iss
    ⟨.getAll, key, ∅, []⟩
  else if command = ascii "GET_FIELDS" then
    let (key, iss) := extract isSpace iss
    ⟨.getFields, key, ∅, words isSpace iss⟩
  else ⟨.invalid, [], ∅, []⟩

example : parsePair (ascii "a=\"b=c\"") = some ⟨ascii "a", ascii "b=c"⟩ := by decide

def pairs (tokens : List Bytes) : List (Σ _ : Bytes, Bytes) := tokens.filterMap parsePair

/-- `deserialize` reads nothing of a command but its words. -/
def ofWords : List Bytes → Request
  | [] => ⟨.invalid, [], ∅, []⟩
  | command :: args =>
    if command = ascii "SET_FIELDS" then
      args.tail.foldl addPair ⟨.setFields, args.headD [], ∅, []⟩
    else if command = ascii "GETALL" then ⟨.getAll, args.headD [], ∅, []⟩
    else if command = ascii "GET_FIELDS" then ⟨.getFields, args.headD [], ∅, args.tail⟩
    else ⟨.invalid, [], ∅, []⟩

theorem deserialize_eq (data : Bytes) : deserialize data = ofWords (words isSpace data) := by
  unfold deserialize
  simp only [extract_fst, words_extract_snd]
  cases words isSpace data with
  | nil => rfl
  | cons command args => rfl

theorem foldl_addPair (tokens : List Bytes) (msg : Request) :
    tokens.foldl addPair msg =
      { msg with
        fields := (pairs tokens).foldl (fun m e => m.insert e.1 e.2) msg.fields
        fieldNames := msg.fieldNames ++ (pairs tokens).keys } := by
  induction tokens generalizing msg with
  | nil => simp [pairs]
  | cons token tokens ih =>
    rw [List.foldl_cons, ih]
    cases h : parsePair token with
    | none => simp [addPair, pairs, h]
    | some e => simp [addPair, pairs, h]

theorem ofWords_setFields (args : List Bytes) :
    ofWords (ascii "SET_FIELDS" :: args) =
      ⟨.setFields, args.headD [], (pairs args.tail).foldl (fun m e => m.insert e.1 e.2) ∅,
        (pairs args.tail).keys⟩ := by
  rw [ofWords, if_pos rfl, foldl_addPair, List.nil_append]

theorem ofWords_getAll (args : List Bytes) :
    ofWords (ascii "GETALL" :: args) = ⟨.getAll, args.headD [], ∅, []⟩ := by
  rw [ofWords, if_neg (by decide), if_pos rfl]

theorem ofWords_getFields (args : List Bytes) :
    ofWords (ascii "GET_FIELDS" :: args) = ⟨.getFields, args.headD [], ∅, args.tail⟩ := by
  rw [ofWords, if_neg (by decide), if_neg (by decide), if_pos rfl]

section Commands

variable {data : Bytes} {args : List Bytes}

theorem deserialize_setFields (hw : words isSpace data = ascii "SET_FIELDS" :: args) :
    deserialize data =
      ⟨.setFields, args.headD [], (pairs args.tail).foldl (fun m e => m.insert e.1 e.2) ∅,
        (pairs args.tail).keys⟩ := by
  rw [deserialize_eq, hw, ofWords_setFields]

theorem deserialize_getAll (hw : words isSpace data = ascii "GETALL" :: args) :
    deserialize data = ⟨.getAll, args.headD [], ∅, []⟩ := by
  rw [deserialize_eq, hw, ofWords_getAll]

theorem deserialize_getFields (hw : words isSpace data = ascii "GET_FIELDS" :: args) :
    deserialize data = ⟨.getFields, args.headD [], ∅, args.tail⟩ := by
  rw [deserialize_eq, hw, ofWords_getFields]

end Commands

theorem find_append {u : Bytes} {c : UInt8} (hu : c ∉ u) (v : Bytes) :
    find (u ++ c :: v) c = some u.length := by
  induction u with
  | nil => simp [find, List.idxOf?_cons]
  | cons b u ih =>
    rw [List.mem_cons, not_or] at hu
    have hb : (b == c) = false := by simpa using Ne.symm hu.1
    have ht : (u ++ c :: v).idxOf? c = some u.length := ih hu.2
    simp [find, List.idxOf?_cons, hb, ht]

/-- A token without the separator is skipped; any other is cut at the first one. -/
theorem parsePair_append {field : Bytes} (hf : kvSep ∉ field) (value : Bytes) :
    parsePair (field ++ kvSep :: value) = some ⟨field, unquote value⟩ := by
  simp only [parsePair, find_append hf, substr]
  simp

theorem parsePair_of_notMem {token : Bytes} (ht : kvSep ∉ token) : parsePair token = none := by
  rw [parsePair, find, List.idxOf?_eq_none_iff.mpr ht]

theorem unquote_quoted (value : Bytes) : unquote (quote :: (value ++ [quote])) = value := by
  have hlast : (quote :: (value ++ [quote])).getLast? = some quote := by
    rw [← List.cons_append, List.getLast?_concat]
  rw [unquote, if_pos ⟨rfl, hlast⟩]
  simp [substr]

theorem unquote_subset (value : Bytes) : unquote value ⊆ value := by
  unfold unquote substr
  split_ifs
  · exact List.Subset.trans (List.take_subset _ _) (List.drop_subset _ _)
  · exact List.Subset.refl value

theorem mem_pairs {tokens : List Bytes} {e : Σ _ : Bytes, Bytes} (he : e ∈ pairs tokens) :
    kvSep ∉ e.1 ∧ ∃ token ∈ tokens, e.1 ⊆ token ∧ e.2 ⊆ token := by
  obtain ⟨token, ht, hp⟩ := List.mem_filterMap.mp he
  by_cases hs : kvSep ∈ token
  · obtain ⟨field, value, rfl, hf⟩ := List.eq_append_cons_of_mem hs
    rw [parsePair_append hf, Option.some.injEq] at hp
    subst hp
    refine ⟨hf, _, ht, List.subset_append_left _ _, ?_⟩
    intro b hb
    exact List.mem_append_right _ (List.mem_cons_of_mem _ (unquote_subset value hb))
  · rw [parsePair_of_notMem hs] at hp
    cases hp

def SpaceFree (s : Bytes) : Prop := ∀ b ∈ s, isSpace b = false

instance (s : Bytes) : Decidable (SpaceFree s) := List.decidableBAll _ s

theorem spaceFree_of_mem_words {data w : Bytes} (hw : w ∈ words isSpace data) : SpaceFree w :=
  noSep_of_mem_words hw

theorem lookup_foldl_pairs (l : List (Σ _ : Bytes, Bytes)) (f : Bytes) :
    AList.lookup f (l.foldl (fun m e => m.insert e.1 e.2) (∅ : UnorderedMap Bytes Bytes)) =
      l.reverse.dlookup f := by
  rw [lookup_foldl_insert, assignAll_eq_dlookup_reverse, AList.lookup_empty, Option.or_none]

theorem spaceFree_headD {args : List Bytes} (ha : ∀ w ∈ args, SpaceFree w) :
    SpaceFree (args.headD []) := by
  cases args with
  | nil => simp [SpaceFree]
  | cons w args => exact ha w (by simp)

/-- The four shapes of a parsed command. -/
theorem deserialize_cases (data : Bytes) :
    (∃ args, words isSpace data = ascii "SET_FIELDS" :: args) ∨
    (∃ args, words isSpace data = ascii "GETALL" :: args) ∨
    (∃ args, words isSpace data = ascii "GET_FIELDS" :: args) ∨
    deserialize data = ⟨.invalid, [], ∅, []⟩ := by
  rw [deserialize_eq]
  cases words isSpace data with
  | nil => simp [ofWords]
  | cons command args =>
    by_cases h1 : command = ascii "SET_FIELDS"
    · exact Or.inl ⟨args, by rw [h1]⟩
    by_cases h2 : command = ascii "GETALL"
    · exact Or.inr (Or.inl ⟨args, by rw [h2]⟩)
    by_cases h3 : command = ascii "GET_FIELDS"
    · exact Or.inr (Or.inr (Or.inl ⟨args, by rw [h3]⟩))
    · exact Or.inr (Or.inr (Or.inr (by rw [ofWords, if_neg h1, if_neg h2, if_neg h3])))

theorem spaceFree_key (data : Bytes) : SpaceFree (deserialize data).key := by
  have hargs : ∀ {command : Bytes} {args : List Bytes}, words isSpace data = command :: args →
      SpaceFree (args.headD []) := by
    intro command args hw
    apply spaceFree_headD
    intro w hm
    have hword : w ∈ words isSpace data := by
      rw [hw]
      exact List.mem_cons_of_mem _ hm
    exact spaceFree_of_mem_words hword
  rcases deserialize_cases data with ⟨args, hw⟩ | ⟨args, hw⟩ | ⟨args, hw⟩ | hd
  · rw [deserialize_setFields hw]
    exact hargs hw
  · rw [deserialize_getAll hw]
    exact hargs hw
  · rw [deserialize_getFields hw]
    exact hargs hw
  · rw [hd]
    simp [SpaceFree]

theorem spaceFree_field {data f v : Bytes} (hf : (deserialize data).fields.lookup f = some v) :
    SpaceFree f ∧ kvSep ∉ f ∧ SpaceFree v := by
  rcases deserialize_cases data with ⟨args, hw⟩ | ⟨args, hw⟩ | ⟨args, hw⟩ | hd
  · rw [deserialize_setFields hw, lookup_foldl_pairs] at hf
    have hmem := List.mem_reverse.mp (List.of_mem_dlookup hf)
    obtain ⟨hsep, token, htoken, hsub, hsub'⟩ := mem_pairs hmem
    have hword : token ∈ words isSpace data := by
      rw [hw]
      exact List.mem_cons_of_mem _ (List.mem_of_mem_tail htoken)
    have hfree := spaceFree_of_mem_words hword
    exact ⟨fun b hb => hfree b (hsub hb), hsep, fun b hb => hfree b (hsub' hb)⟩
  · rw [deserialize_getAll hw] at hf
    cases hf
  · rw [deserialize_getFields hw] at hf
    cases hf
  · rw [hd] at hf
    cases hf

/-- `SET_FIELDS key n1="v1" ... nm="vm"`. -/
def quotedPair (e : Σ _ : Bytes, Bytes) : Bytes := e.1 ++ kvSep :: quote :: (e.2 ++ [quote])

def quotedCommand (key : Bytes) (l : List (Σ _ : Bytes, Bytes)) : Bytes :=
  ascii "SET_FIELDS" ++ (key :: l.map quotedPair).flatMap fun w => space :: w

theorem parsePair_quotedPair {e : Σ _ : Bytes, Bytes} (he : kvSep ∉ e.1) :
    parsePair (quotedPair e) = some e := by
  rw [quotedPair, parsePair_append he, unquote_quoted]

theorem pairs_map_quotedPair {l : List (Σ _ : Bytes, Bytes)} (hl : ∀ e ∈ l, kvSep ∉ e.1) :
    pairs (l.map quotedPair) = l := by
  induction l with
  | nil => rfl
  | cons e l ih =>
    have he := parsePair_quotedPair (hl e (by simp))
    have ih' := ih fun e he => hl e (by simp [he])
    rw [pairs] at ih' ⊢
    rw [List.map_cons, List.filterMap_cons, he, ih']

/-- Without whitespace in keys, names and values a quoted command has the words
it was written with. -/
theorem words_quotedCommand {key : Bytes} {l : List (Σ _ : Bytes, Bytes)} (hk : key ≠ [])
    (hks : SpaceFree key) (hl : ∀ e ∈ l, SpaceFree e.1 ∧ SpaceFree e.2) :
    words isSpace (quotedCommand key l) = ascii "SET_FIELDS" :: key :: l.map quotedPair := by
  have hname : SpaceFree (ascii "SET_FIELDS") := by decide
  apply words_flatMap_cons (by decide)
  · exact ⟨by decide, hname⟩
  · intro w hw
    rcases List.mem_cons.mp hw with rfl | hw
    · exact ⟨hk, hks⟩
    · obtain ⟨e, he, rfl⟩ := List.mem_map.mp hw
      refine ⟨by simp [quotedPair], ?_⟩
      intro b hb
      simp only [quotedPair, List.mem_append, List.mem_cons, List.not_mem_nil, or_false] at hb
      rcases hb with hb | rfl | rfl | hb | rfl
      · exact (hl e he).1 b hb
      · decide
      · decide
      · exact (hl e he).2 b hb
      · decide

theorem deserialize_quotedCommand {key : Bytes} {l : List (Σ _ : Bytes, Bytes)} (hk : key ≠ [])
    (hks : SpaceFree key) (hl : ∀ e ∈ l, SpaceFree e.1 ∧ SpaceFree e.2)
    (hsep : ∀ e ∈ l, kvSep ∉ e.1) :
    deserialize (quotedCommand key l) =
      ⟨.setFields, key, l.foldl (fun m e => m.insert e.1 e.2) ∅, l.keys⟩ := by
  rw [deserialize_setFields (words_quotedCommand hk hks hl), List.tail_cons,
    pairs_map_quotedPair hsep, List.headD_cons]

/-- Parsing a quoted command gives back what it was written from. -/
structure RoundTrips (key : Bytes) (l : List (Σ _ : Bytes, Bytes)) : Prop where
  type_eq : (deserialize (quotedCommand key l)).type = .setFields
  key_eq : (deserialize (quotedCommand key l)).key = key
  lookup_eq : ∀ f, (deserialize (quotedCommand key l)).fields.lookup f = l.dlookup f
  fieldNames_eq : (deserialize (quotedCommand key l)).fieldNames = l.keys

theorem roundTrips_of_spaceFree {key : Bytes} {l : List (Σ _ : Bytes, Bytes)} (hk : key ≠ [])
    (hks : SpaceFree key) (hnd : l.NodupKeys) (hl : ∀ e ∈ l, SpaceFree e.1 ∧ SpaceFree e.2)
    (hsep : ∀ e ∈ l, kvSep ∉ e.1) : RoundTrips key l := by
  have hd := deserialize_quotedCommand hk hks hl hsep
  refine ⟨by rw [hd], by rw [hd], ?_, by rw [hd]⟩
  intro f
  rw [hd, lookup_foldl_pairs]
  exact List.perm_dlookup f ((List.perm_nodupKeys l.reverse_perm).mpr hnd) l.reverse_perm

/-- A quoted command round-trips exactly when no value has whitespace: the
tokenizer runs before the quotes are looked at. -/
theorem quotedCommand_roundTrips_iff {key : Bytes} {l : List (Σ _ : Bytes, Bytes)}
    (hk : key ≠ []) (hks : SpaceFree key) (hnd : l.NodupKeys)
    (hnames : ∀ e ∈ l, SpaceFree e.1 ∧ kvSep ∉ e.1) :
    RoundTrips key l ↔ ∀ e ∈ l, SpaceFree e.2 := by
  constructor
  · rintro ⟨-, -, hfields, -⟩ ⟨f, v⟩ he
    have hlook : (deserialize (quotedCommand key l)).fields.lookup f = some v := by
      rw [hfields]
      exact List.mem_dlookup hnd he
    exact (spaceFree_field hlook).2.2
  · intro hl
    exact roundTrips_of_spaceFree hk hks hnd (fun e he => ⟨(hnames e he).1, hl e he⟩)
      (fun e he => (hnames e he).2)

/-- The README's first command loses the part of the name after the space. -/
theorem not_roundTrips_john_doe :
    ¬RoundTrips (ascii "user123") [⟨ascii "name", ascii "John Doe"⟩] := by
  intro h
  have hname := h.lookup_eq (ascii "name")
  revert hname
  decide

theorem roundTrips_john : RoundTrips (ascii "user123")
    [⟨ascii "name", ascii "John"⟩, ⟨ascii "age", ascii "30"⟩] := by
  have hnd : ([⟨ascii "name", ascii "John"⟩, ⟨ascii "age", ascii "30"⟩] :
      List (Σ _ : Bytes, Bytes)).NodupKeys := by
    rw [List.nodupKeys_cons]
    exact ⟨by decide, List.nodupKeys_singleton _⟩
  refine (quotedCommand_roundTrips_iff (by decide) (by decide) hnd ?_).mpr ?_
  · rw [List.forall_mem_cons, List.forall_mem_singleton]
    decide
  · rw [List.forall_mem_cons, List.forall_mem_singleton]
    decide

theorem mem_fieldNames_iff {data : Bytes} (ht : (deserialize data).type = .setFields) (f : Bytes) :
    f ∈ (deserialize data).fieldNames ↔ f ∈ (deserialize data).fields := by
  rcases deserialize_cases data with ⟨args, hw⟩ | ⟨args, hw⟩ | ⟨args, hw⟩ | hd
  · have hlook := lookup_foldl_pairs (pairs args.tail) f
    rw [deserialize_setFields hw]
    simp only
    rw [← AList.lookup_isSome, hlook, List.dlookup_isSome]
    simp only [List.keys, List.map_reverse, List.mem_reverse]
  · rw [deserialize_getAll hw] at ht
    cases ht
  · rw [deserialize_getFields hw] at ht
    cases ht
  · rw [hd] at ht
    cases ht

theorem fields_of_key_eq_nil {data : Bytes} (hk : (deserialize data).key = []) :
    (deserialize data).fields = ∅ := by
  rcases deserialize_cases data with ⟨args, hw⟩ | ⟨args, hw⟩ | ⟨args, hw⟩ | hd
  · rw [deserialize_setFields hw] at hk ⊢
    cases args with
    | nil => rfl
    | cons key args =>
      have hmem : key ∈ words isSpace data := by simp [hw]
      exact absurd hk (ne_nil_of_mem_words hmem)
  · rw [deserialize_getAll hw]
  · rw [deserialize_getFields hw]
  · rw [hd]

theorem roundTrips_nil : RoundTrips [] [] := by
  have hw : words isSpace (quotedCommand [] []) = [ascii "SET_FIELDS"] := by decide
  have hd : deserialize (quotedCommand [] []) = ⟨.setFields, [], ∅, []⟩ := by
    rw [deserialize_setFields hw]
    rfl
  exact ⟨by rw [hd], by rw [hd], fun f => by rw [hd]; rfl, by rw [hd]; rfl⟩

theorem roundTrips_deserialize (data : Bytes) {l : List (Σ _ : Bytes, Bytes)}
    (hl : l.Perm (deserialize data).fields.entries) : RoundTrips (deserialize data).key l := by
  by_cases hk : (deserialize data).key = []
  · rw [fields_of_key_eq_nil hk] at hl
    rw [hk, List.perm_nil.mp hl]
    exact roundTrips_nil
  · have hfree : ∀ e ∈ l, SpaceFree e.1 ∧ kvSep ∉ e.1 ∧ SpaceFree e.2 := by
      rintro ⟨f, v⟩ he
      exact spaceFree_field (AList.mem_lookup_iff.mpr (hl.mem_iff.mp he))
    exact roundTrips_of_spaceFree hk (spaceFree_key data)
      ((List.perm_nodupKeys hl).mpr (deserialize data).fields.nodupKeys)
      (fun e he => ⟨(hfree e he).1, (hfree e he).2.2⟩) (fun e he => (hfree e he).2.1)

/-- A parsed `SET_FIELDS`, written back with its fields quoted and in any order,
is parsed to the same key and fields. -/
theorem deserialize_quotedCommand_deserialize {data : Bytes}
    (ht : (deserialize data).type = .setFields) {l : List (Σ _ : Bytes, Bytes)}
    (hl : l.Perm (deserialize data).fields.entries) :
    (deserialize (quotedCommand (deserialize data).key l)).type = .setFields ∧
      (deserialize (quotedCommand (deserialize data).key l)).key = (deserialize data).key ∧
      (∀ f, (deserialize (quotedCommand (deserialize data).key l)).fields.lookup f =
        (deserialize data).fields.lookup f) ∧
      ∀ f, f ∈ (deserialize data).fieldNames ↔ f ∈ (deserialize data).fields := by
  have h := roundTrips_deserialize data hl
  refine ⟨h.type_eq, h.key_eq, ?_, mem_fieldNames_iff ht⟩
  intro f
  rw [h.lookup_eq]
  exact List.perm_dlookup f ((List.perm_nodupKeys hl).mpr (deserialize data).fields.nodupKeys) hl

/-- A lone quote, an empty value, a separator in a value and a repeated field. -/
theorem deserialize_quotedCommand_deserialize_quotes :
    let data := ascii "SET_FIELDS k a=\" b= c=1=2 =x a=\"\"\"\"";
    (deserialize (quotedCommand (deserialize data).key (deserialize data).fields.entries)).type =
        .setFields ∧
      (deserialize (quotedCommand (deserialize data).key (deserialize data).fields.entries)).key =
        (deserialize data).key ∧
      (∀ f, (deserialize (quotedCommand (deserialize data).key
          (deserialize data).fields.entries)).fields.lookup f =
        (deserialize data).fields.lookup f) ∧
      ∀ f, f ∈ (deserialize data).fieldNames ↔ f ∈ (deserialize data).fields :=
  deserialize_quotedCommand_deserialize (by decide) (List.Perm.refl _)

end MuStore.Protocol
