import WatchExpr.Proofs.Frame.Types
import WatchExpr.Proofs.Grammar.TypeIds
import WatchExpr.Proofs.Lexing.Longest

/-!
# Names for types in front of pointer signs

A name for a type stands for the type without its outermost qualifiers: these are no part of what is
stored. Otherwise pointer signs behind the name form the same type as behind the text that it is
defined by.
-/

namespace WatchExpr

open Lexeme Grammar

/-! ## Pointer signs -/

/-- The pointer to a type through any number of levels, the innermost first. -/
def Ty.pointers (t : Ty) (cvs : List Qualifiers) : Ty :=
  cvs.foldl .pointer t

/-- Signs of pointers, each with the qualifiers that are written behind it. -/
inductive PointerSigns : List TokenKind → List Qualifiers → Prop where
  | nil : PointerSigns [] []
  | cons {qs ks : List TokenKind} {cvs : List Qualifiers}
      (hqs : ∀ q ∈ qs, q = .keyword .const ∨ q = .keyword .volatile) (hks : PointerSigns ks cvs) :
      PointerSigns (.punct .star :: (qs ++ ks))
        (⟨decide (.keyword .const ∈ qs), decide (.keyword .volatile ∈ qs)⟩ :: cvs)

variable {finish : EndMark} {d : TypeId} {ts zs : List Token} {ks : List TokenKind}
  {cvs : List Qualifiers}

theorem PointerSigns.eq_star {k : TokenKind} (h : PointerSigns (k :: ks) cvs) : k = .punct .star := by
  cases h
  rfl

theorem PointerSigns.specifiersEnd (h : PointerSigns ks cvs) (hts : ts.map Token.kind = ks) :
    SpecifiersEnd ts := by
  cases h with
  | nil =>
      obtain rfl := List.map_eq_nil_iff.1 hts
      intro z hz
      cases hz
  | cons hqs hks =>
      obtain ⟨t, us, rfl, ht, -⟩ := List.map_eq_cons_iff.1 hts
      exact specifiersEnd_sign (by rw [ht]; rfl)

namespace Grammar

theorem pointerQualifiers_of_kinds {qs : List TokenKind}
    (hqs : ∀ q ∈ qs, q = .keyword .const ∨ q = .keyword .volatile) (hts : ts.map Token.kind = qs)
    (hzs : SpecifiersEnd zs) (cv : Qualifiers) :
    pointerQualifiers cv (ts ++ zs) =
      (cv.union ⟨decide (.keyword .const ∈ qs), decide (.keyword .volatile ∈ qs)⟩, zs) := by
  induction qs generalizing ts cv with
  | nil =>
      obtain rfl := List.map_eq_nil_iff.1 hts
      simp [hzs.pointerQualifiers_eq, Qualifiers.union]
  | cons q qs ih =>
      obtain ⟨t, us, rfl, ht, hus⟩ := List.map_eq_cons_iff.1 hts
      obtain ⟨hq, hmore⟩ := List.forall_mem_cons.1 hqs
      obtain rfl | rfl := hq
      · rw [List.cons_append, pointerQualifiers_const ht, ih hmore hus]
        simp [Qualifiers.union]
      · rw [List.cons_append, pointerQualifiers_volatile ht, ih hmore hus]
        simp [Qualifiers.union]

/-- Pointer signs are added to the type-id that they stand behind. -/
theorem declaratorSigns_of_pointerSigns (h : PointerSigns ks cvs) (hts : ts.map Token.kind = ks)
    (d : TypeId) :
    declaratorSigns d ts = (cvs.foldl (fun d cv => d.addSign (.pointer cv)) d, []) := by
  induction h generalizing ts d with
  | nil =>
      obtain rfl := List.map_eq_nil_iff.1 hts
      rw [declaratorSigns]
      rfl
  | cons hqs hks ih =>
      obtain ⟨t, us, rfl, ht, hus⟩ := List.map_eq_cons_iff.1 hts
      obtain ⟨vs, ws, rfl, hvs, hws⟩ := List.map_eq_append_iff.1 hus
      rw [declaratorSigns, ht]
      dsimp only
      rw [pointerQualifiers_of_kinds hqs hvs (hks.specifiersEnd hws), ih hws]
      simp [Qualifiers.union, Qualifiers.none]

end Grammar

namespace TypeId

variable {types types' : TypeNames} {d : TypeId} {t : Ty}

theorem Stands.pointers (h : Stands types d t) (cvs : List Qualifiers) :
    Stands types (cvs.foldl (fun d cv => d.addSign (.pointer cv)) d) (t.pointers cvs) := by
  induction cvs generalizing d t with
  | nil => exact h
  | cons cv cvs ih => exact ih (h.pointer cv)

theorem isVoid_pointers (ht : t.isVoid = false) (cvs : List Qualifiers) :
    (t.pointers cvs).isVoid = false := by
  induction cvs generalizing t with
  | nil => exact ht
  | cons cv cvs ih => exact ih rfl

theorem Stands.resolve_pointers (h : Stands types d t) (ht : t.isVoid = false) (cvs : List Qualifiers) :
    (cvs.foldl (fun d cv => d.addSign (.pointer cv)) d).resolve types = .ok (t.pointers cvs) := by
  have hstands := h.pointers cvs
  obtain ⟨b, hb, hsigns⟩ := hstands.signs
  exact resolve_eq_ok hstands.wellFormed hstands.specified hb hsigns (isVoid_pointers ht cvs)

theorem stands_of_resolve (h : d.resolve types = .ok t) (hd : .reference ∉ d.signs) :
    Stands types d t ∧ t.isVoid = false := by
  obtain ⟨hspecified, b, hresolves⟩ := resolve_eq_ok_iff.1 h
  exact ⟨⟨hresolves.wellFormed, hspecified, hd, b, hresolves.base, hresolves.signs⟩, hresolves.notVoid⟩

/-- A type-id that stands for a type keeps standing for it when further names become known. -/
theorem resolve_mono (htypes : ∀ n u, types n = some u → types' n = some u)
    (h : d.resolve types = .ok t) : d.resolve types' = .ok t := by
  obtain ⟨hspecified, b, hresolves⟩ := resolve_eq_ok_iff.1 h
  refine resolve_eq_ok_iff.2 ⟨hspecified, b, ⟨hresolves.wellFormed, ?_, hresolves.signs, hresolves.notVoid⟩⟩
  have hbase := hresolves.base
  unfold base at hbase ⊢
  split at hbase
  · rename_i n hn
    split at hbase
    · rename_i u hu
      rw [htypes n u hu]
      exact hbase
    · cases hbase
  · exact hbase

end TypeId

/-! ## Texts -/

namespace Ty

variable {types types' : TypeNames} {text suffix : String} {t : Ty} {cvs : List Qualifiers}

theorem read_mono (htypes : ∀ n u, types n = some u → types' n = some u)
    (h : Ty.read types text = .ok t) : Ty.read types' text = .ok t := by
  obtain ⟨d, us, u, bounds, hd, hresolve, hbounds, ht⟩ :=
    arrayType_eq_ok_iff.1 (read_type_eq_ok_iff.1 h)
  exact read_type_eq_ok_iff.2
    (arrayType_eq_ok_iff.2 ⟨d, us, u, bounds, hd, TypeId.resolve_mono htypes hresolve, hbounds, ht⟩)

theorem pointers_injective {u : Ty} (h : t.pointers cvs = u.pointers cvs) : t = u := by
  induction cvs generalizing t u with
  | nil => exact h
  | cons cv cvs ih => exact (Ty.pointer.inj (ih h)).1

theorem unqualified_eq_iff : t.unqualified = t ↔ t.cv = .none := by
  cases t <;> simp [unqualified, withCv, cv, eq_comm]

/-- The text of a type-id with nothing behind it, and without signs of references. -/
def IsBareTypeId (text : String) : Prop :=
  ∃ d, Grammar.typeId (Tokens.lex text).finish (Tokens.lex text).body = .ok d [] ∧
    .reference ∉ d.signs

end Ty

theorem breaksBetween_pointerSigns {suffix : String} {cvs : List Qualifiers}
    (h : PointerSigns ((Tokens.lex suffix).body.map Token.kind) cvs) (cs : List Char) :
    BreaksBetween cs suffix.toList := by
  have hkinds : (Tokens.lex suffix).body.map Token.kind =
      (Tokens.lexemes suffix.toList).map Lexeme.kind := by
    rw [Tokens.lexemes, List.map_map]
    rfl
  rw [hkinds] at h
  cases hsuffix : suffix.toList with
  | nil => exact fun c _ d hd => by cases hd
  | cons d ds =>
      refine breaksBetween_cons ?_ cs ds
      cases hd : Text.isBlank d with
      | true => exact breaks_blank hd
      | false =>
          -- What is no blank is the first sign.
          rw [hsuffix, Tokens.lexemes_piece hd, List.map_cons] at h
          have hmark := (split_isLongest hd ds).eq_mark h.eq_star
          have happend := split_append d ds
          rw [hmark] at happend
          obtain ⟨rfl, -⟩ := List.cons.inj happend
          exact breaks_of_first (by decide) (by decide) (by decide)

/-- The tokens of a text with pointer signs behind it. -/
theorem exists_lex_pointerSigns (text : String) {suffix : String} {cvs : List Qualifiers}
    (h : PointerSigns ((Tokens.lex suffix).body.map Token.kind) cvs) :
    ∃ us zs, (Tokens.lex (text ++ suffix)).body = us ++ zs ∧
      us.map Token.lexeme = Tokens.lexemes text.toList ∧
      zs.map Token.kind = (Tokens.lex suffix).body.map Token.kind := by
  have hlexemes : (Tokens.lex (text ++ suffix)).body.map Token.lexeme =
      Tokens.lexemes text.toList ++ Tokens.lexemes suffix.toList := by
    rw [← Tokens.lexemes_append_of_breaks (breaksBetween_pointerSigns h text.toList),
      ← String.toList_append]
    rfl
  obtain ⟨us, zs, hbody, hus, hzs⟩ := List.map_eq_append_iff.1 hlexemes
  refine ⟨us, zs, hbody, hus, ?_⟩
  have hkinds := congrArg (List.map Lexeme.kind) hzs
  rwa [Tokens.lexemes, List.map_map, List.map_map] at hkinds

namespace Ty

variable {types : TypeNames} {text suffix : String} {t : Ty} {cvs : List Qualifiers}

theorem read_eq_ok_of_typeId {d : TypeId}
    (hd : Grammar.typeId (Tokens.lex text).finish (Tokens.lex text).body = .ok d [])
    (ht : d.resolve types = .ok t) : Ty.read types text = .ok t :=
  read_type_eq_ok_iff.2 (arrayType_eq_ok_iff.2 ⟨d, [], t, [], hd, ht, by rw [arrayBounds], rfl⟩)

/-- Pointer signs behind a type-id form pointers to the type that it stands for. -/
theorem IsBareTypeId.read_pointers (h : IsBareTypeId text) (ht : Ty.read types text = .ok t)
    (hsuffix : PointerSigns ((Tokens.lex suffix).body.map Token.kind) cvs) :
    Ty.read types (text ++ suffix) = .ok (t.pointers cvs) := by
  obtain ⟨d, hd, hsigns⟩ := h
  obtain ⟨d', us', u, bounds, hd', hresolve, hbounds, rfl⟩ :=
    arrayType_eq_ok_iff.1 (read_type_eq_ok_iff.1 ht)
  cases hd.symm.trans hd'
  rw [arrayBounds] at hbounds
  cases hbounds
  obtain ⟨hstands, hvoid⟩ := TypeId.stands_of_resolve hresolve hsigns
  obtain ⟨before, hbefore, hread⟩ := typeId_reads hd
  obtain ⟨us, zs, hbody, hus, hzs⟩ := exists_lex_pointerSigns text hsuffix
  have hsame : SameTexts us before := by
    rw [List.append_nil] at hbefore
    rw [SameTexts, ← hbefore]
    exact hus
  refine read_eq_ok_of_typeId ?_ (hstands.resolve_pointers hvoid cvs)
  rw [hbody, hread _ us zs hsame (hsuffix.specifiersEnd hzs), declaratorSigns_of_pointerSigns hsuffix hzs]

/-- Pointer signs behind a name form pointers to what it stands for. -/
theorem read_pointers_of_name {name : String} (hname : IsIdentifier name)
    (htypes : types name = some t) (hvoid : t.isVoid = false)
    (hsuffix : PointerSigns ((Tokens.lex suffix).body.map Token.kind) cvs) :
    Ty.read types (name ++ suffix) = .ok (t.unqualified.pointers cvs) := by
  have hstands : TypeId.Stands types (({} : TypeId).addName name) t.unqualified := by
    refine ⟨rfl, rfl, List.not_mem_nil, t.unqualified, ?_, rfl⟩
    simp only [TypeId.base, TypeId.addName, htypes]
    rfl
  have hvoid' : t.unqualified.isVoid = false := by rw [unqualified, isVoid_withCv, hvoid]
  obtain ⟨us, zs, hbody, hus, hzs⟩ := exists_lex_pointerSigns name hsuffix
  have hends := hsuffix.specifiersEnd hzs
  have htypeName := (IsScopedName.last hname).isTypeName
  obtain ⟨v, vs, rfl, hv⟩ := htypeName.starts hus
  have hname : typeName (Tokens.lex (name ++ suffix)).finish (v :: vs ++ zs) = .ok name zs :=
    htypeName.reads hus hends.nameEnds
  rw [List.cons_append] at hname
  have hspecifiers : specifiers (Tokens.lex (name ++ suffix)).finish {} (v :: (vs ++ zs)) =
      .ok (({} : TypeId).addName name) zs := by
    rw [specifiers_name hv rfl hname, hends.specifiers_eq]
  refine read_eq_ok_of_typeId ?_ (hstands.resolve_pointers hvoid' cvs)
  rw [hbody, List.cons_append, typeId_eq hspecifiers rfl, declaratorSigns_of_pointerSigns hsuffix hzs]

end Ty

/-! ## Loading -/

namespace Snapshot

variable {frame : Frame} {s s' : Snapshot} {ds : List TypedefDef} {d : TypedefDef} {t : Ty}

/-- What names stand for they go on to stand for. -/
def TypesKept (s s' : Snapshot) : Prop :=
  ∀ name t, s.types.lookup name = some t → s'.types.lookup name = some t

theorem TypesKept.read (h : TypesKept s s') {text : String} (ht : Ty.read s.type? text = .ok t) :
    Ty.read s'.type? text = .ok t :=
  Ty.read_mono (fun _ _ hn => h _ _ hn) ht

theorem lookup_addType_self (s : Snapshot) (name : String) (t : Ty) :
    (s.addType name t).types.lookup name = some t.unqualified := by
  simp [addType]

theorem lookup_addType_of_ne {name name' : String} (h : name' ≠ name) (s : Snapshot) (t : Ty) :
    (s.addType name t).types.lookup name' = s.types.lookup name' := by
  rw [addType, List.lookup_cons, beq_false_of_ne h]

theorem typesKept_addType {name : String} (h : s.types.lookup name = none) (t : Ty) :
    TypesKept s (s.addType name t) := by
  intro name' u hu
  by_cases hname : name' = name
  · rw [hname, h] at hu
    cases hu
  · rw [lookup_addType_of_ne hname, hu]

/-- Names that are defined once stay what they are defined as, and their texts are read as before. -/
theorem typedefs_stand (h : ds.foldlM loadTypedef s = .ok s') (hnames : (ds.map (·.name)).Nodup)
    (hnew : ∀ d ∈ ds, s.types.lookup d.name = none) :
    TypesKept s s' ∧ ∀ d ∈ ds, ∃ t, Ty.read s'.type? d.type = .ok t ∧
      s'.types.lookup d.name = some t.unqualified := by
  induction ds generalizing s with
  | nil =>
      cases h
      exact ⟨fun _ _ ht => ht, nofun⟩
  | cons d ds ih =>
      rw [List.foldlM_cons] at h
      obtain ⟨s₁, hs₁, h⟩ := bind_eq_ok_iff.1 h
      obtain ⟨t, ht, rfl⟩ := loadTypedef_cases hs₁
      rw [List.map_cons, List.nodup_cons] at hnames
      obtain ⟨hd, hds⟩ := List.forall_mem_cons.1 hnew
      have hne : ∀ d' ∈ ds, d'.name ≠ d.name := fun d' hd' heq =>
        hnames.1 (List.mem_map.2 ⟨d', hd', heq⟩)
      obtain ⟨hkept, hlater⟩ := ih h hnames.2 fun d' hd' => by
        rw [lookup_addType_of_ne (hne d' hd'), hds d' hd']
      have hfirst := typesKept_addType hd t
      refine ⟨fun name u hu => hkept _ _ (hfirst _ _ hu), List.forall_mem_cons.2 ⟨⟨t, ?_, ?_⟩, hlater⟩⟩
      · exact hkept.read (hfirst.read ht)
      · exact hkept _ _ (lookup_addType_self s d.name t)

theorem type?_of_identifier {name : String} (h : IsIdentifier name) (s : Snapshot) :
    s.type? name = s.types.lookup name := by
  obtain ⟨c, cs, hchars, hc, -⟩ := h.1
  rw [type?, globalName?_of_startsWord hchars hc, Option.getD_none]

theorem typedef_stands (hs : ofFrame frame = .ok s)
    (hnames : (frame.records.map (·.name) ++ frame.typedefs.map (·.name)).Nodup)
    (hd : d ∈ frame.typedefs) :
    ∃ t, Ty.read s.type? d.type = .ok t ∧ s.types.lookup d.name = some t.unqualified := by
  obtain ⟨named, fields, hstages⟩ := stages_of_ofFrame hs
  obtain ⟨-, htypedefs, hdisjoint⟩ := List.nodup_append.1 hnames
  have hnew : ∀ d ∈ frame.typedefs, (ofRecords frame).types.lookup d.name = none := by
    intro d hd
    cases hlookup : (ofRecords frame).types.lookup d.name with
    | none => rfl
    | some t =>
        obtain ⟨r, hr, hname, -⟩ := lookup_ofRecords hlookup
        exact absurd hname (hdisjoint _ (List.mem_map_of_mem hr) _ (List.mem_map_of_mem hd))
  rw [type?_congr hstages.types, hstages.types]
  exact (typedefs_stand hstages.typedefs htypedefs hnew).2 d hd

/-- Pointer signs behind a name for a type form pointers to what its text stands for, less the outermost
qualifiers of that; behind the text itself these are kept. Without such qualifiers, and only then, it
makes no difference which of the two is written. -/
theorem typedef_name_pointers (hs : ofFrame frame = .ok s)
    (hnames : (frame.records.map (·.name) ++ frame.typedefs.map (·.name)).Nodup)
    (hd : d ∈ frame.typedefs) (hname : IsIdentifier d.name) (htext : Ty.IsBareTypeId d.type)
    {suffix : String} {cvs : List Qualifiers}
    (hsuffix : PointerSigns ((Tokens.lex suffix).body.map Token.kind) cvs) :
    ∃ t, Ty.read s.type? d.type = .ok t ∧
      Ty.read s.type? (d.type ++ suffix) = .ok (t.pointers cvs) ∧
      Ty.read s.type? (d.name ++ suffix) = .ok (t.unqualified.pointers cvs) ∧
      (Ty.read s.type? (d.name ++ suffix) = Ty.read s.type? (d.type ++ suffix) ↔ t.cv = .none) := by
  obtain ⟨t, ht, hlookup⟩ := typedef_stands hs hnames hd
  have hvoid : t.unqualified.isVoid = false := by
    obtain ⟨id, us, u, bounds, -, hresolve, -, rfl⟩ := arrayType_eq_ok_iff.1 (read_type_eq_ok_iff.1 ht)
    obtain ⟨-, b, hresolves⟩ := TypeId.resolve_eq_ok_iff.1 hresolve
    rw [Ty.unqualified, Ty.isVoid_withCv]
    cases bounds with
    | nil => exact hresolves.notVoid
    | cons n bounds => rfl
  have htypes : s.type? d.name = some t.unqualified := (type?_of_identifier hname s).trans hlookup
  have hread := htext.read_pointers ht hsuffix
  have hstored : t.unqualified.unqualified = t.unqualified := by cases t <;> rfl
  have hnamed := Ty.read_pointers_of_name hname htypes hvoid hsuffix
  rw [hstored] at hnamed
  refine ⟨t, ht, hread, hnamed, ?_⟩
  rw [hread, hnamed, Except.ok.injEq]
  constructor
  · exact fun h => Ty.unqualified_eq_iff.1 (Ty.pointers_injective h)
  · exact fun h => by rw [Ty.unqualified_eq_iff.2 h]

/-- Qualifiers inside a type stay, here under a name that is defined by another one. -/
theorem typedef_name_pointers_chain :
    let frame : Frame :=
      { function := "f", file := none, line := none, records := []
        typedefs := [⟨"P", "const int* volatile"⟩, ⟨"Q", "const P*"⟩]
        globals := [], scopes := [], memory := [] }
    let p : Ty := .pointer (.scalar (.arithmetic (.integral .int)) ⟨true, false⟩) ⟨true, false⟩
    ∃ s, ofFrame frame = .ok s ∧
      Ty.read s.type? ("Q" ++ " * const*") =
        .ok (.pointer (.pointer (.pointer p .none) ⟨true, false⟩) .none) ∧
      Ty.read s.type? ("Q" ++ " * const*") = Ty.read s.type? ("const P*" ++ " * const*") := by
  intro frame p
  let s : Snapshot :=
    { function := "f"
      types := [("Q", .pointer p .none), ("P", p.unqualified)] }
  have hs : ofFrame frame = .ok s := by decide +kernel
  have htext : Ty.IsBareTypeId "const P*" :=
    ⟨{ name? := some "P", cv := ⟨true, false⟩, signs := [.pointer .none] }, by decide +kernel,
      by decide⟩
  have hkinds : (Tokens.lex " * const*").body.map Token.kind =
      .punct .star :: ([.keyword .const] ++ .punct .star :: ([] ++ [])) := by decide +kernel
  have hsuffix : PointerSigns ((Tokens.lex " * const*").body.map Token.kind)
      [⟨true, false⟩, ⟨false, false⟩] :=
    hkinds ▸ .cons (by simp) (.cons (by simp) .nil)
  have hread : Ty.read s.type? "const P*" = .ok (.pointer p .none) := by decide +kernel
  obtain ⟨t, ht, -, hnamed, hsame⟩ := typedef_name_pointers (d := ⟨"Q", "const P*"⟩) hs (by decide)
    (by simp [frame]) (by decide) htext hsuffix
  obtain rfl := Except.ok.inj (ht.symm.trans hread)
  exact ⟨s, hs, hnamed, hsame.2 rfl⟩

/-- The outermost qualifiers of the text are not stored. -/
theorem typedef_name_drops_qualifiers :
    let frame : Frame :=
      { function := "f", file := none, line := none, records := []
        typedefs := [⟨"CI", "const int"⟩]
        globals := [], scopes := [], memory := [] }
    let int (q : Qualifiers) : Ty := .scalar (.arithmetic (.integral .int)) q
    (frame.records.map (·.name) ++ frame.typedefs.map (·.name)).Nodup ∧ IsIdentifier "CI" ∧
      Ty.IsBareTypeId "const int" ∧ PointerSigns ((Tokens.lex "*").body.map Token.kind) [.none] ∧
      ∃ s, ofFrame frame = .ok s ∧ Ty.read s.type? ("CI" ++ "*") = .ok (.pointer (int .none) .none) ∧
        Ty.read s.type? ("const int" ++ "*") = .ok (.pointer (int ⟨true, false⟩) .none) ∧
        Ty.read s.type? ("CI" ++ "*") ≠ Ty.read s.type? ("const int" ++ "*") := by
  intro frame int
  let s : Snapshot := { function := "f", types := [("CI", int .none)] }
  have hs : ofFrame frame = .ok s := by decide +kernel
  have hkinds : (Tokens.lex "*").body.map Token.kind = .punct .star :: ([] ++ []) := by
    decide +kernel
  have hsuffix : PointerSigns ((Tokens.lex "*").body.map Token.kind) [.none] :=
    hkinds ▸ .cons (by simp) .nil
  have htext : Ty.IsBareTypeId "const int" :=
    ⟨{ words := [.int], cv := ⟨true, false⟩ }, by decide +kernel, by decide⟩
  refine ⟨by decide, by decide, htext, hsuffix, s, hs, ?_⟩
  decide +kernel

end Snapshot

end WatchExpr
