import LayerCache.Keys.Reading

/-! # When two calls share a key

Key parts are told apart by what they start with, and none runs into the colon before the
next. So a wrapped function never serves one call the entry of another as long as their
arguments differ in something that keys keep.
-/

namespace LayerCache.Keys
open Json

theorem wellFormed_tagged {tag name : String} {js : List Value} (hname : name ≠ "$type")
    (hindex : arrayIndex name = none) (hjs : ∀ j ∈ js, Json.WellFormed j) :
    Json.WellFormed (.object [("$type", .string tag), (name, .array js)]) := by
  refine .object (fun m hm => ?_) (ofEntries_tagged hname hindex)
  simp only [List.mem_cons, List.not_mem_nil, or_false] at hm
  rcases hm with rfl | rfl
  · exact .string _
  · exact .array hjs

theorem wellFormed_strings {ms : List (String × Value)} (h : ∀ m ∈ ms, ∃ s, m.2 = .string s)
    (hkeys : ms.map (·.1) = ["$type", "value"] ∨ ms.map (·.1) = ["$type", "source", "flags"]) :
    Json.WellFormed (.object ms) := by
  refine .object (fun m hm => ?_) (ofEntries_native hkeys)
  obtain ⟨s, hs⟩ := h m hm
  exact hs ▸ .string s

theorem leafValue_wellFormed {a : Arg} {j : Value} (h : a.leafValue = some j) :
    Json.WellFormed j := by
  cases a with
  | number n => cases n <;> cases h <;> first | exact .null | exact .number _
  | date d =>
    cases d with
    | none => cases h
    | some d => cases h; exact wellFormed_strings (by simp) (.inl rfl)
  | url => cases h; exact wellFormed_strings (by simp) (.inl rfl)
  | regExp => cases h; exact wellFormed_strings (by simp) (.inr rfl)
  | _ =>
    cases h
    try constructor

theorem Reads.wellFormed {rt : Runtime} : ∀ a : Arg, a.WellFormed →
    ∀ j, Reads rt a j → Json.WellFormed j := by
  refine Arg.induction ?array ?map ?set ?object ?leaf
  case array =>
    intro items ih ha j hj
    obtain ⟨js, rfl, hjs⟩ := reads_array hj
    cases ha with | array ha =>
    refine .array fun j hj => ?_
    obtain ⟨x, hx, hxj⟩ := forall₂_mem_right hjs hj
    exact ih x hx (ha x hx) j hxj
  case map =>
    intro entries ih ha j hj
    obtain ⟨ps, rfl, hps⟩ := reads_map hj
    cases ha with | map hk hv =>
    refine wellFormed_tagged (by decide) (by decide) fun j hj => ?_
    obtain ⟨p, hp, rfl⟩ := List.mem_map.mp hj
    obtain ⟨e, he, hep⟩ := forall₂_mem_right hps hp
    have he := mem_arrangeMap.mp he
    refine .array fun v hv' => ?_
    simp only [List.mem_cons, List.not_mem_nil, or_false] at hv'
    rcases hv' with rfl | rfl
    · exact (ih e he).1 (hk e he) _ hep.1
    · exact (ih e he).2 (hv e he) _ hep.2
  case set =>
    intro members ih ha j hj
    obtain ⟨js, rfl, hjs⟩ := reads_set hj
    cases ha with | set ha =>
    refine wellFormed_tagged (by decide) (by decide) fun j hj => ?_
    obtain ⟨x, hx, hxj⟩ := forall₂_mem_right hjs hj
    have hx := mem_arrangeSet.mp hx
    exact ih x hx (ha x hx) j hxj
  case object =>
    intro members ih ha j hj
    obtain ⟨-, vs, rfl, hvs⟩ := reads_object hj
    cases ha with | object ha hnodup =>
    have hkeys : (vs.map (·.1)).Nodup := forall₂_keys hvs ▸ keptMembers_keys hnodup
    refine .object (fun v hv => ?_) (ofEntries_ofEntries hkeys)
    obtain ⟨m, hm, hmv⟩ := forall₂_mem_right hvs ((ofEntries_perm hkeys).mem_iff.mp hv)
    have hm := mem_keptMembers hm
    exact ih m hm (ha m hm) _ hmv.2
  case leaf =>
    intro a hparts _ j hj
    exact leafValue_wellFormed (reads_leaf hparts hj)

/-- What follows a key part: nothing, or the colon before the next one. -/
def Ends (rest : List Char) : Prop := rest = [] ∨ ∃ t, rest = ':' :: t

theorem Ends.follows {rest : List Char} (h : Ends rest) : Follows rest := by
  rcases h with rfl | ⟨t, rfl⟩
  · simp [Follows]
  · exact follows_cons (by decide)

theorem append_ends_injective {p q r t : List Char} (hp : ':' ∉ p) (hq : ':' ∉ q) (hr : Ends r)
    (ht : Ends t) (h : p ++ r = q ++ t) : p = q ∧ r = t := by
  induction p generalizing q with
  | nil =>
    cases q with
    | nil => exact ⟨rfl, h⟩
    | cons c q =>
      rcases hr with rfl | ⟨r, rfl⟩
      · cases h
      · exact absurd (List.cons.inj h).1 (List.ne_of_not_mem_cons hq)
  | cons c p ih =>
    cases q with
    | nil =>
      rcases ht with rfl | ⟨t, rfl⟩
      · cases h
      · exact absurd (List.cons.inj h).1.symm (List.ne_of_not_mem_cons hp)
    | cons d q =>
      obtain ⟨rfl, htail⟩ := List.cons.inj h
      obtain ⟨rfl, hrt⟩ := ih (List.not_mem_of_not_mem_cons hp) (List.not_mem_of_not_mem_cons hq)
        htail
      exact ⟨rfl, hrt⟩

theorem print_head_ne (v : Value) (rest : List Char) : (print v ++ rest).head? ≠ some 'u' := by
  cases v with
  | null => simp [print]
  | bool b => cases b <;> simp [print]
  | string s => simp [print, quote]
  | array items => cases items <;> simp [print]
  | object members => cases members <;> simp [print]
  | number n =>
    obtain ⟨c, cs, hn, hc⟩ := n.chars_cons
    simp only [print, hn, List.cons_append, List.head?_cons, ne_eq, Option.some.injEq]
    rintro rfl
    revert hc
    decide

theorem templateText_append_injective {o o' : Option Value} {r t : List Char}
    (ho : ∀ v ∈ o, Json.WellFormed v) (ho' : ∀ v ∈ o', Json.WellFormed v) (hr : Ends r)
    (ht : Ends t) (h : templateText o ++ r = templateText o' ++ t) : o = o' ∧ r = t := by
  cases o with
  | none =>
    cases o' with
    | none => exact ⟨rfl, List.append_cancel_left h⟩
    | some v => exact absurd (congrArg List.head? h).symm (print_head_ne v t)
  | some v =>
    cases o' with
    | none => exact absurd (congrArg List.head? h) (print_head_ne v r)
    | some w =>
      obtain ⟨rfl, hrt⟩ := print_append_injective (ho v rfl) (ho' w rfl) hr.follows ht.follows h
      exact ⟨rfl, hrt⟩

theorem colon_not_mem_escapePart (s : List Char) : ':' ∉ escapePart s := by
  simp only [escapePart, List.mem_flatMap, not_exists, not_and]
  rintro c -
  split
  · decide
  · next hc => simpa using fun h => hc h.symm

theorem escapePart_cons (c : Char) (s : List Char) :
    escapePart (c :: s) =
      (if c = '%' then ['%', '2', '5'] else if c = ':' then ['%', '3', 'A'] else [c]) ++
        escapePart s := by
  simp only [escapePart, List.flatMap_cons]
  split
  · simp
  · simp

theorem escapePart_injective {s t : List Char} (h : escapePart s = escapePart t) : s = t := by
  have hne : ∀ c s, escapePart (c :: s) ≠ [] := fun c s => by
    rw [escapePart_cons]
    split_ifs <;> simp
  induction s generalizing t with
  | nil =>
    cases t with
    | nil => rfl
    | cons d t => exact absurd h.symm (hne d t)
  | cons c s ih =>
    cases t with
    | nil => exact absurd h (hne c s)
    | cons d t =>
      rw [escapePart_cons, escapePart_cons] at h
      have hcd : c = d ∧ escapePart s = escapePart t := by
        split_ifs at h <;> grind
      rw [hcd.1, ih hcd.2]

def notLiterals : List (List Char) :=
  ["NaN".toList, "Infinity".toList, "-Infinity".toList]

theorem chars_ne_notLiteral (k : Json.Number) : k.chars ∉ notLiterals := fun h => by
  have hall : ∀ s ∈ notLiterals, s.all isNumberChar = false := by decide
  have := hall _ h
  rw [k.numeric] at this
  cases this

theorem Number.text_injective {m n : Number} : m.text = n.text ↔ m.withoutSign = n.withoutSign := by
  have hne : ∀ k : Json.Number, ∀ s ∈ notLiterals, k.chars ≠ s ∧ s ≠ k.chars := fun k s hs =>
    ⟨fun h => chars_ne_notLiteral k (h ▸ hs), fun h => chars_ne_notLiteral k (h ▸ hs)⟩
  have hchars : ∀ k l : Json.Number, k.chars = l.chars ↔ k = l := fun k l => by
    cases k
    cases l
    simp
  have hzero : ∀ m : Number, m.text = m.withoutSign.text := fun m => by cases m <;> rfl
  constructor
  · intro h
    rw [hzero m, hzero n] at h
    generalize hm : m.withoutSign = m' at *
    generalize hn : n.withoutSign = n' at *
    cases m' with
    | negativeZero => cases m <;> cases hm
    | finite k =>
      cases n' with
      | negativeZero => cases n <;> cases hn
      | finite l => rw [(hchars k l).mp h]
      | nan => exact absurd h (hne k _ (by decide)).1
      | infinity negative => cases negative <;> exact absurd h (hne k _ (by decide)).1
    | nan =>
      cases n' with
      | negativeZero => cases n <;> cases hn
      | finite l => exact absurd h (hne l _ (by decide)).2
      | nan => rfl
      | infinity negative => cases negative <;> exact absurd h (by decide)
    | infinity negative =>
      cases n' with
      | negativeZero => cases n <;> cases hn
      | finite l => cases negative <;> exact absurd h (hne l _ (by decide)).2
      | nan => cases negative <;> exact absurd h (by decide)
      | infinity negative' =>
        cases negative <;> cases negative' <;> first | rfl | exact absurd h (by decide)
  · intro h
    rw [hzero m, hzero n, h]

theorem colon_not_mem_text (n : Number) : ':' ∉ n.text := by
  cases n with
  | finite k =>
    intro h
    have := List.all_eq_true.mp k.numeric _ h
    revert this
    decide
  | negativeZero => decide
  | nan => decide
  | infinity negative => cases negative <;> decide

def Arg.isStructured : Arg → Bool
  | .string _ | .number _ | .bool _ => false
  | _ => true

theorem serializeKeyPart_structured {rt : Runtime} {a : Arg} {p : List Char}
    (hs : a.isStructured = true) (h : serializeKeyPart rt a = .ok p) :
    ∃ o : Option Value, p = 'j' :: '2' :: ':' :: templateText o ∧ Reads rt a (o.getD .null) ∧
      (o = none ↔ a = .undefined) := by
  obtain ⟨n, hn, o, ho, rfl⟩ : ∃ n, normalizeValue rt a = .ok n ∧ ∃ o, toJson n = .ok o ∧
      p = 'j' :: '2' :: ':' :: templateText o := by
    cases a with
    | string | number | bool => cases hs
    | _ =>
      simp only [serializeKeyPart, ok_bind] at h
      obtain ⟨n, hn, o, ho, h⟩ := h
      cases h
      exact ⟨n, hn, o, ho, rfl⟩
  have hnone := (toJson_isNone ho).trans (normalizeValue_undefined hn)
  refine ⟨o, rfl, ⟨n, hn, o, ho, rfl⟩, ?_⟩
  rw [← Option.isNone_iff_eq_none, hnone]
  cases a <;> simp [Arg.isUndefined]

theorem partAlike_of_reads {rt : Runtime} {a b : Arg} {o : Option Value} (ha : a.WellFormed)
    (hb : b.WellFormed) (hsa : a.isStructured = true) (hsb : b.isStructured = true)
    (hra : Reads rt a (o.getD .null)) (hrb : Reads rt b (o.getD .null))
    (hna : o = none ↔ a = .undefined) (hnb : o = none ↔ b = .undefined) : PartAlike rt a b := by
  have hblank : ∀ c : Arg, c.isStructured = true → c ≠ .undefined → c.isBlank = true → c = .null :=
    fun c hs hne hc => by
      cases c with
      | undefined => exact absurd rfl hne
      | null => rfl
      | number => cases hs
      | _ => cases hc
  by_cases ho : o = none
  · rw [hna.mp ho, hnb.mp ho]
    exact .undefined
  · exact .other (hblank a hsa (ho ∘ hna.mpr)) (hblank b hsb (ho ∘ hnb.mpr))
      (alike_of_reads a ha b hb _ hra hrb)

/-- Where two texts that start with a key part agree, the parts are those of like arguments
and what follows them is the same. -/
theorem serializeKeyPart_append {rt : Runtime} {a b : Arg} {p q r t : List Char}
    (ha : a.WellFormed) (hb : b.WellFormed) (hp : serializeKeyPart rt a = .ok p)
    (hq : serializeKeyPart rt b = .ok q) (hr : Ends r) (ht : Ends t) (h : p ++ r = q ++ t) :
    PartAlike rt a b ∧ r = t := by
  have hbool : ∀ c : Bool, ':' ∉ (if c then "true" else "false").toList := by decide
  cases hsa : a.isStructured with
  | true =>
    obtain ⟨o, rfl, hra, hna⟩ := serializeKeyPart_structured hsa hp
    cases hsb : b.isStructured with
    | true =>
      obtain ⟨o', rfl, hrb, hnb⟩ := serializeKeyPart_structured hsb hq
      simp only [List.cons_append, List.cons.injEq, true_and] at h
      have hwf : ∀ c : Arg, c.WellFormed → ∀ o : Option Value, Reads rt c (o.getD .null) →
          ∀ v ∈ o, Json.WellFormed v := by
        rintro c hc _ hread v rfl
        exact hread.wellFormed c hc _
      obtain ⟨rfl, hrt⟩ := templateText_append_injective (hwf a ha o hra) (hwf b hb o' hrb) hr ht h
      exact ⟨partAlike_of_reads ha hb hsa hsb hra hrb hna hnb, hrt⟩
    | false =>
      cases b with
      | string | number | bool => cases hq; simp at h
      | _ => cases hsb
  | false =>
    cases a with
    | string s =>
      cases hp
      cases b with
      | string s' =>
        cases hq
        simp only [List.cons_append, List.cons.injEq, true_and] at h
        obtain ⟨he, hrt⟩ := append_ends_injective (colon_not_mem_escapePart _)
          (colon_not_mem_escapePart _) hr ht h
        rw [String.toList_inj.mp (escapePart_injective he)]
        exact ⟨.other nofun nofun (.string _), hrt⟩
      | number | bool => cases hq; simp at h
      | _ =>
        obtain ⟨o, rfl, -⟩ := serializeKeyPart_structured rfl hq
        simp at h
    | number m =>
      cases hp
      cases b with
      | number n =>
        cases hq
        simp only [List.cons_append, List.cons.injEq, true_and] at h
        obtain ⟨he, hrt⟩ := append_ends_injective (colon_not_mem_text _) (colon_not_mem_text _)
          hr ht h
        exact ⟨.number (Number.text_injective.mp he), hrt⟩
      | string | bool => cases hq; simp at h
      | _ =>
        obtain ⟨o, rfl, -⟩ := serializeKeyPart_structured rfl hq
        simp at h
    | bool c =>
      cases hp
      cases b with
      | bool d =>
        cases hq
        simp only [List.cons_append, List.cons.injEq, true_and] at h
        obtain ⟨he, hrt⟩ := append_ends_injective (hbool c) (hbool d) hr ht h
        have hinj : ∀ c d : Bool, (if c then "true" else "false").toList =
            (if d then "true" else "false").toList → c = d := by decide
        rw [hinj c d he]
        exact ⟨.other nofun nofun (.bool _), hrt⟩
      | string | number => cases hq; simp at h
      | _ =>
        obtain ⟨o, rfl, -⟩ := serializeKeyPart_structured rfl hq
        simp at h
    | _ => cases hsa

theorem serializeKeyPart_eq {rt : Runtime} {a b : Arg} {p q : List Char} (h : PartAlike rt a b)
    (hp : serializeKeyPart rt a = .ok p) (hq : serializeKeyPart rt b = .ok q) : p = q := by
  cases h with
  | undefined =>
    rw [hp] at hq
    exact Except.ok.inj hq
  | number h =>
    cases hp
    cases hq
    rw [Number.text_injective.mpr h]
  | other hba hbb h =>
    cases hsa : a.isStructured with
    | true =>
      have hsb : b.isStructured = true := by
        cases h with
        | blank _ hb => rw [hbb hb]; rfl
        | string | number | bool => cases hsa
        | _ => rfl
      obtain ⟨o, rfl, hra, hna⟩ := serializeKeyPart_structured hsa hp
      obtain ⟨o', rfl, hrb, hnb⟩ := serializeKeyPart_structured hsb hq
      have heq := reads_of_alike a b h _ _ hra hrb
      have hsome : ∀ (c : Arg) (o : Option Value), (c.isBlank = true → c = .null) →
          (o = none ↔ c = .undefined) → ∃ v, o = some v := by
        rintro c o hc hn
        cases o with
        | some v => exact ⟨v, rfl⟩
        | none =>
          have := hn.mp rfl
          subst this
          cases hc rfl
      obtain ⟨v, rfl⟩ := hsome a o hba hna
      obtain ⟨w, rfl⟩ := hsome b o' hbb hnb
      rw [show v = w from heq]
    | false =>
      cases h with
      | blank ha hb =>
        rw [hba ha] at hsa
        cases hsa
      | number h =>
        cases hp
        cases hq
        rw [Number.text_injective.mpr h]
      | string | bool =>
        rw [hp] at hq
        exact Except.ok.inj hq
      | _ => cases hsa

theorem serializeKeyParts_ok {rt : Runtime} {args : List Arg} {parts : List (List Char)} :
    serializeKeyParts rt args = .ok parts ↔
      List.Forall₂ (fun a p => serializeKeyPart rt a = .ok p) args parts := by
  induction args generalizing parts with
  | nil => simp [serializeKeyParts, eq_comm]
  | cons a args ih =>
    simp only [serializeKeyParts, ok_bind, ih, List.forall₂_cons_left_iff]
    constructor
    · rintro ⟨p, hp, ps, hps, h⟩
      cases h
      exact ⟨p, ps, hp, hps, rfl⟩
    · rintro ⟨p, ps, hp, hps, rfl⟩
      exact ⟨p, hp, ps, hps, rfl⟩

def restText (parts : List (List Char)) : List Char := parts.flatMap (':' :: ·)

theorem joinParts_cons (p : List Char) (parts : List (List Char)) :
    joinParts (p :: parts) = p ++ restText parts := by
  induction parts generalizing p with
  | nil => simp [joinParts, restText]
  | cons q parts ih =>
    have := ih q
    simp only [joinParts, restText] at this ⊢
    rw [List.intercalate_cons_cons, this]
    simp

theorem ends_restText (parts : List (List Char)) : Ends (restText parts) := by
  cases parts with
  | nil => exact .inl rfl
  | cons p parts => exact .inr ⟨p ++ restText parts, by simp [restText]⟩

/-- Equal texts come from lists whose arguments are alike, one by one. -/
theorem partsAlike_of_restText {rt : Runtime} {args args' : List Arg}
    {parts parts' : List (List Char)} (hwf : ∀ a ∈ args, a.WellFormed)
    (hwf' : ∀ a ∈ args', a.WellFormed)
    (hp : List.Forall₂ (fun a p => serializeKeyPart rt a = .ok p) args parts)
    (hp' : List.Forall₂ (fun a p => serializeKeyPart rt a = .ok p) args' parts')
    (h : restText parts = restText parts') : List.Forall₂ (PartAlike rt) args args' := by
  induction hp generalizing args' parts' with
  | nil =>
    cases hp' with
    | nil => exact .nil
    | cons => cases h
  | cons ha _ ih =>
    cases hp' with
    | nil => cases h
    | cons hb hrest =>
      have h := (List.cons.inj h).2
      obtain ⟨hab, htail⟩ := serializeKeyPart_append (hwf _ List.mem_cons_self)
        (hwf' _ List.mem_cons_self) ha hb (ends_restText _) (ends_restText _) h
      exact .cons hab (ih (fun a ha => hwf a (List.mem_cons_of_mem _ ha))
        (fun a ha => hwf' a (List.mem_cons_of_mem _ ha)) hrest htail)

theorem parts_eq {rt : Runtime} {args args' : List Arg} {parts parts' : List (List Char)}
    (h : List.Forall₂ (PartAlike rt) args args')
    (hp : List.Forall₂ (fun a p => serializeKeyPart rt a = .ok p) args parts)
    (hp' : List.Forall₂ (fun a p => serializeKeyPart rt a = .ok p) args' parts') :
    parts = parts' :=
  eq_of_forall₂ h hp hp' fun _ _ _ _ _ hab hp hq => serializeKeyPart_eq hab hp hq

theorem wrapKey_eq {rt : Runtime} {pre key : String} {args : List Arg}
    (h : wrapKey rt pre args = .ok key) :
    ∃ parts, List.Forall₂ (fun a p => serializeKeyPart rt a = .ok p) args parts ∧
      key.toList = pre.toList ++ restText parts := by
  obtain ⟨parts, hparts, h⟩ := ok_bind.mp h
  have hparts := serializeKeyParts_ok.mp hparts
  have hkey := (Except.ok.inj h).symm
  refine ⟨parts, hparts, ?_⟩
  cases hparts with
  | nil => simp [hkey, joinParts, restText]
  | @cons a p args parts hp _ =>
    have hlen : 0 < (joinParts (p :: parts)).length := by
      have : p ≠ [] := by
        rintro rfl
        cases hs : a.isStructured with
        | true => obtain ⟨o, h, -⟩ := serializeKeyPart_structured hs hp; cases h
        | false =>
          cases a with
          | string | number | bool => cases hp
          | _ => cases hs
      rw [joinParts_cons, List.length_append]
      exact Nat.add_pos_left (List.length_pos_iff.mpr this) _
    rw [hkey, if_pos hlen]
    simp [joinParts_cons, restText]

/-- Two calls share a key exactly if their arguments differ in nothing that key parts keep. -/
theorem wrapKey_eq_iff {rt : Runtime} {pre key key' : String} {args args' : List Arg}
    (hwf : ∀ a ∈ args, a.WellFormed) (hwf' : ∀ a ∈ args', a.WellFormed)
    (h : wrapKey rt pre args = .ok key) (h' : wrapKey rt pre args' = .ok key') :
    key = key' ↔ List.Forall₂ (PartAlike rt) args args' := by
  obtain ⟨parts, hp, hkey⟩ := wrapKey_eq h
  obtain ⟨parts', hp', hkey'⟩ := wrapKey_eq h'
  rw [← String.toList_inj, hkey, hkey', List.append_right_inj]
  constructor
  · exact partsAlike_of_restText hwf hwf' hp hp'
  · intro halike
    rw [parts_eq halike hp hp']

/-- The keys of two calls are equal exactly for equal arguments if and only if the arguments
are kept apart. -/
theorem wrapKey_faithful_iff (rt : Runtime) (pre key key' : String) (args args' : List Arg)
    (hwf : ∀ a ∈ args, a.WellFormed) (hwf' : ∀ a ∈ args', a.WellFormed)
    (h : wrapKey rt pre args = .ok key) (h' : wrapKey rt pre args' = .ok key') :
    (key = key' ↔ List.Forall₂ Same args args') ↔ KeptApart rt args args' := by
  rw [wrapKey_eq_iff hwf hwf' h h']
  exact ⟨fun h => ⟨h.mp, h.mpr⟩, fun h => ⟨h.apart, h.together⟩⟩

/-- An implementation whose `localeCompare` compares code units. -/
def byUnits : Runtime where
  le := unitsLE
  le_total := unitsLE_total
  le_trans _ _ _ := unitsLE_trans
  asks _ := false

/-- The order in which a set was filled does not reach its key. -/
theorem wrapKey_faithful_set :
    KeptApart byUnits [.set [.string "b", .string "a"]] [.set [.string "a", .string "b"]] := by
  have hwf : ∀ s t : String, ∀ a ∈ [Arg.set [.string s, .string t]], a.WellFormed := by
    intro s t a ha
    rw [List.mem_singleton.mp ha]
    refine .set fun b hb => ?_
    simp only [List.mem_cons, List.not_mem_nil, or_false] at hb
    rcases hb with rfl | rfl <;> exact .string _
  obtain ⟨key, h, h'⟩ : ∃ key, wrapKey byUnits "tags" [.set [.string "b", .string "a"]] = .ok key ∧
      wrapKey byUnits "tags" [.set [.string "a", .string "b"]] = .ok key := ⟨_, rfl, rfl⟩
  refine (wrapKey_faithful_iff byUnits "tags" key key _ _ (hwf _ _) (hwf _ _) h h').mp ?_
  exact iff_of_true rfl
    (.cons (.set (.cons (.string _) (.cons (.string _) .nil)) (.swap _ _ _)) .nil)

/-- A list that holds NaN has the key of the list that holds `null`. -/
theorem wrapKey_conflates :
    ∃ key, wrapKey byUnits "price" [.array [.number .nan]] = .ok key ∧
      wrapKey byUnits "price" [.array [.null]] = .ok key ∧
      ¬ List.Forall₂ Same [.array [.number .nan]] [.array [.null]] := by
  refine ⟨_, rfl, rfl, fun h => ?_⟩
  cases h with | cons h _ =>
  cases h with | array h =>
  cases h with | cons h _ =>
  cases h

end LayerCache.Keys
