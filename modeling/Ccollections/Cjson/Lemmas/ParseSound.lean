import Ccollections.Cjson.ParseValue

/-!
# Every document the parser accepts is a JSON text

The frames say how the text read so far goes on: `Awaiting` is the text up to a place for a value.
-/

namespace Ccollections.Cjson
open Lib List

/-! ## The text of the frames -/

def ElementsText (strtod : List UInt8 → UInt64) (n : Nat) (t : List UInt8) (vs : List Json) : Prop :=
  ∃ elems : List Element, elems ≠ [] ∧ (∀ e ∈ elems, Ws e.before ∧ Ws e.after) ∧
    (∀ e ∈ elems, ValueText strtod n e.text e.value) ∧ t = commaSeparated (elems.map Element.padded) ∧
    vs = elems.map Element.value

def MembersText (strtod : List UInt8 → UInt64) (n : Nat) (t : List UInt8) (ms : List (List UInt8 × Json)) : Prop :=
  ∃ members : List Member, members ≠ [] ∧
    (∀ m ∈ members, Ws m.beforeKey ∧ Ws m.afterKey ∧ Ws m.before ∧ Ws m.after) ∧
    (∀ m ∈ members, StringText m.keyText m.key) ∧ (∀ m ∈ members, ValueText strtod n m.text m.value) ∧
    t = commaSeparated (members.map Member.full) ∧ ms = members.map fun m => (m.key, m.value)

/-- The text before the next element or member: white space, or the earlier ones and a comma. -/
inductive Lead {α : Type} (full : List UInt8 → List α → Prop) : List α → List UInt8 → Prop
  | first {w : List UInt8} (hw : Ws w) : Lead full [] w
  | next {t w : List UInt8} {items : List α} (h : full t items) (hw : Ws w) : Lead full items (t ++ 0x2C :: w)

inductive Open (strtod : List UInt8 → UInt64) (n : Nat) : ParseFrame → List UInt8 → Prop
  | freshList {ko kl} : Open strtod n ⟨.list [], ko, kl, false⟩ [0x5B]
  | freshDictionary {ko kl} : Open strtod n ⟨.dictionary [], ko, kl, false⟩ [0x7B]
  | list {ko kl t vs} (h : ElementsText strtod n t vs) : Open strtod n ⟨.list vs, ko, kl, true⟩ (0x5B :: t)
  | dictionary {ko kl t ms} (h : MembersText strtod n t ms) :
      Open strtod n ⟨.dictionary (memberMap ms), ko, kl, true⟩ (0x7B :: t)

inductive Awaiting (strtod : List UInt8 → UInt64) : List ParseFrame → List UInt8 → List UInt8 → Prop
  | root {w} (hw : Ws w) : Awaiting strtod [] [] w
  | list {frames keys pre ko kl vs lead} (h : Awaiting strtod frames keys pre) (hdepth : frames.length < cjsonMaxParseDepth)
      (hlead : Lead (ElementsText strtod (cjsonMaxParseDepth - frames.length - 1)) vs lead) :
      Awaiting strtod (⟨.list vs, ko, kl, true⟩ :: frames) keys (pre ++ 0x5B :: lead)
  | dictionary {frames keys pre ms lead keyText key w w'} (h : Awaiting strtod frames keys pre)
      (hdepth : frames.length < cjsonMaxParseDepth)
      (hlead : Lead (MembersText strtod (cjsonMaxParseDepth - frames.length - 1)) ms lead) (hkey : StringText keyText key)
      (hw : Ws w) (hw' : Ws w') :
      Awaiting strtod (⟨.dictionary (memberMap ms), keys.length, key.length, true⟩ :: frames) (keys ++ key ++ [0])
        (pre ++ 0x7B :: (lead ++ keyText ++ w ++ 0x3A :: w'))

inductive Consumed (strtod : List UInt8 → UInt64) : ParseState → List UInt8 → Prop
  | value {ctx frames keys pre} (h : Awaiting strtod frames keys pre) : Consumed strtod (.valueStep ctx frames keys) pre
  | deliver {ctx frames keys pre t v} (h : Awaiting strtod frames keys pre)
      (hv : ValueText strtod (cjsonMaxParseDepth - frames.length) t v) :
      Consumed strtod (.deliverStep v ctx frames keys) (pre ++ t)
  | next {ctx frames keys pre t f} (h : Awaiting strtod frames keys pre) (hdepth : frames.length < cjsonMaxParseDepth)
      (hopen : Open strtod (cjsonMaxParseDepth - frames.length - 1) f t) :
      Consumed strtod (.nextStep f ctx frames keys) (pre ++ t)
  | key {ctx frames keys pre ms lead ko kl} (h : Awaiting strtod frames keys pre) (hdepth : frames.length < cjsonMaxParseDepth)
      (hlead : Lead (MembersText strtod (cjsonMaxParseDepth - frames.length - 1)) ms lead) :
      Consumed strtod (.keyStep ⟨.dictionary (memberMap ms), ko, kl, true⟩ ctx frames keys) (pre ++ 0x7B :: lead)

def ParseState.ctx : ParseState → ParseCtx
  | .valueStep ctx _ _ => ctx
  | .deliverStep _ ctx _ _ => ctx
  | .nextStep _ ctx _ _ => ctx
  | .keyStep _ ctx _ _ => ctx

def SplitsSource (strtod : List UInt8 → UInt64) (src : List UInt8) (st : ParseState) : Prop :=
  ∃ pre, src = pre ++ st.ctx.rest ∧ Consumed strtod st pre

variable {strtod : List UInt8 → UInt64} {n : Nat} {t t' w w' lead pre keys key keyText : List UInt8} {v : Json}
  {st : ParseState} {ctx : ParseCtx} {ms : List (List UInt8 × Json)}
  {frames : List ParseFrame} {f : ParseFrame}

/-! ## Dictionaries -/

theorem lookup_reverse_snoc (ms : List (List UInt8 × Json)) (k key : List UInt8) (v : Json) :
    (ms ++ [(k, v)]).reverse.lookup key = if key == k then some v else ms.reverse.lookup key := by
  rw [reverse_append, reverse_singleton, singleton_append, lookup_cons]
  cases key == k <;> rfl

theorem lookup_reverse_isSome {key : List UInt8} (h : key ∈ ms.map Prod.fst) :
    (ms.reverse.lookup key).isSome = true := by
  obtain ⟨e, he, rfl⟩ := mem_map.mp h
  rw [lookup_isSome_iff]
  exact ⟨e, mem_reverse.mpr he, beq_self_eq_true _⟩

theorem mem_memberMap {e : List UInt8 × Json} (h : e ∈ memberMap ms) : e.1 ∈ ms.map Prod.fst := by
  rw [memberMap, mem_filterMap] at h
  obtain ⟨key, hkey, hvalue⟩ := h
  rw [Option.map_eq_some_iff] at hvalue
  obtain ⟨v, -, rfl⟩ := hvalue
  exact mem_eraseDups.mp hkey

theorem memberMap_snoc_new {k : List UInt8} (h : k ∉ ms.map Prod.fst) (v : Json) :
    memberMap (ms ++ [(k, v)]) = memberMap ms ++ [(k, v)] := by
  have hkeys : ((ms ++ [(k, v)]).map Prod.fst).eraseDups = (ms.map Prod.fst).eraseDups ++ [k] := by
    rw [map_append, eraseDups_append]
    simp [List.removeAll, h, eraseDups_cons]
  rw [memberMap, hkeys, filterMap_append]
  congr 1
  · apply filterMap_congr
    intro key hkey
    have hne : key ≠ k := fun heq => h (heq ▸ mem_eraseDups.mp hkey)
    rw [lookup_reverse_snoc, if_neg (by simpa using hne)]
  · simp

theorem memberMap_snoc_old {k : List UInt8} (h : k ∈ ms.map Prod.fst) (v : Json) :
    memberMap (ms ++ [(k, v)]) = OrderedMap.update (· == ·) (memberMap ms) k v := by
  have hkeys : ((ms ++ [(k, v)]).map Prod.fst).eraseDups = (ms.map Prod.fst).eraseDups := by
    rw [map_append, eraseDups_append]
    simp [List.removeAll, h]
  rw [memberMap, hkeys, OrderedMap.update, memberMap, map_filterMap]
  apply filterMap_congr
  intro key hkey
  obtain ⟨old, hold⟩ := Option.isSome_iff_exists.mp (lookup_reverse_isSome (mem_eraseDups.mp hkey))
  rw [lookup_reverse_snoc, hold]
  by_cases heq : key = k
  · simp [heq]
  · simp [heq]

theorem memberMap_snoc (ms : List (List UInt8 × Json)) (k : List UInt8) (v : Json) :
    memberMap (ms ++ [(k, v)]) = dictPut (memberMap ms) k v := by
  rw [dictPut]
  by_cases hk : k ∈ ms.map Prod.fst
  · rw [memberMap_snoc_old hk]
    cases hlookup : OrderedMap.lookup (· == ·) (memberMap ms) k with
    | none =>
      rw [OrderedMap.lookup_eq_none_iff] at hlookup
      obtain ⟨old, hold⟩ := Option.isSome_iff_exists.mp (lookup_reverse_isSome hk)
      have hmem : (k, old) ∈ memberMap ms := by
        rw [memberMap, mem_filterMap]
        exact ⟨k, mem_eraseDups.mpr hk, by rw [hold]; rfl⟩
      have hne := hlookup _ hmem
      simp at hne
    | some _ => rfl
  · have hlookup : OrderedMap.lookup (· == ·) (memberMap ms) k = none := by
      rw [OrderedMap.lookup_eq_none_iff]
      intro e he
      have hne : e.1 ≠ k := fun heq => hk (heq ▸ mem_memberMap he)
      simpa using hne
    rw [memberMap_snoc_new hk, hlookup]

/-! ## Parts of an array or an object -/

theorem Ws.nil : Ws [] := by simp [Ws]

theorem Ws.append (h : Ws w) (h' : Ws w') : Ws (w ++ w') := by
  intro c hc
  rcases mem_append.mp hc with hc | hc
  · exact h c hc
  · exact h' c hc

theorem commaSeparated_cons (p : List UInt8) (ps : List (List UInt8)) :
    commaSeparated (p :: ps) = p ++ ps.flatMap fun q => 0x2C :: q := by
  induction ps generalizing p with
  | nil => simp [commaSeparated]
  | cons q ps ih =>
    have hcons : commaSeparated (p :: q :: ps) = p ++ 0x2C :: commaSeparated (q :: ps) := by
      simp [commaSeparated, intercalate_cons_cons]
    rw [hcons, ih q]
    simp

theorem commaSeparated_snoc {ps : List (List UInt8)} (hne : ps ≠ []) (p : List UInt8) :
    commaSeparated (ps ++ [p]) = commaSeparated ps ++ 0x2C :: p := by
  cases ps with
  | nil => exact absurd rfl hne
  | cons q ps => simp [commaSeparated_cons]

theorem commaSeparated_append_last (ps : List (List UInt8)) (p : List UInt8) :
    commaSeparated (ps ++ [p ++ w]) = commaSeparated (ps ++ [p]) ++ w := by
  cases ps with
  | nil => simp [commaSeparated]
  | cons q ps => simp [commaSeparated_cons]

theorem forall_mem_snoc {α : Type} {P : α → Prop} {l : List α} {a : α} (h : ∀ x ∈ l, P x) (ha : P a) : ∀ x ∈ l ++ [a], P x := by
  intro x hx
  rcases mem_append.mp hx with hx | hx
  · exact h x hx
  · rwa [mem_singleton.mp hx]

theorem ElementsText.pad {vs : List Json} (h : ElementsText strtod n t vs) (hw : Ws w) : ElementsText strtod n (t ++ w) vs := by
  obtain ⟨elems, hne, hws, hvals, rfl, rfl⟩ := h
  obtain ⟨init, e, rfl⟩ := (eq_nil_or_concat elems).resolve_left hne
  rw [concat_eq_append] at hws hvals ⊢
  have hlast : e ∈ init ++ [e] := by simp
  refine ⟨init ++ [{ e with after := e.after ++ w }], by simp, ?_, ?_, ?_, by simp⟩
  · exact forall_mem_snoc (fun x hx => hws x (mem_append_left _ hx)) ⟨(hws e hlast).1, (hws e hlast).2.append hw⟩
  · exact forall_mem_snoc (fun x hx => hvals x (mem_append_left _ hx)) (hvals e hlast)
  · rw [map_append, map_append, map_singleton, map_singleton, ← commaSeparated_append_last]
    simp [Element.padded]

theorem MembersText.pad (h : MembersText strtod n t ms) (hw : Ws w) :
    MembersText strtod n (t ++ w) ms := by
  obtain ⟨members, hne, hws, hkeys, hvals, rfl, rfl⟩ := h
  obtain ⟨init, m, rfl⟩ := (eq_nil_or_concat members).resolve_left hne
  rw [concat_eq_append] at hws hkeys hvals ⊢
  have hlast : m ∈ init ++ [m] := by simp
  obtain ⟨hb, hak, hbv, ha⟩ := hws m hlast
  refine ⟨init ++ [{ m with after := m.after ++ w }], by simp, ?_, ?_, ?_, ?_, by simp⟩
  · exact forall_mem_snoc (fun x hx => hws x (mem_append_left _ hx)) ⟨hb, hak, hbv, ha.append hw⟩
  · exact forall_mem_snoc (fun x hx => hkeys x (mem_append_left _ hx)) (hkeys m hlast)
  · exact forall_mem_snoc (fun x hx => hvals x (mem_append_left _ hx)) (hvals m hlast)
  · rw [map_append, map_append, map_singleton, map_singleton, ← commaSeparated_append_last]
    simp [Member.full, Element.padded]

theorem Lead.pad {α : Type} {full : List UInt8 → List α → Prop} {items : List α} (h : Lead full items lead) (hw : Ws w) :
    Lead full items (lead ++ w) := by
  cases h with
  | first hw' => exact .first (hw'.append hw)
  | next h hw' =>
    rw [append_assoc, cons_append]
    exact .next h (hw'.append hw)

theorem Lead.element {vs : List Json} (h : Lead (ElementsText strtod n) vs lead) (hv : ValueText strtod n t v) :
    ElementsText strtod n (lead ++ t) (vs ++ [v]) := by
  cases h with
  | first hw =>
    refine ⟨[⟨lead, t, [], v⟩], by simp, by simp [hw, Ws.nil], by simpa using hv, ?_, rfl⟩
    simp [commaSeparated, Element.padded]
  | @next lead' w' _ h hw =>
    obtain ⟨elems, hne, hws, hvals, rfl, rfl⟩ := h
    refine ⟨elems ++ [⟨w', t, [], v⟩], by simp, ?_, ?_, ?_, by simp⟩
    · exact forall_mem_snoc hws ⟨hw, Ws.nil⟩
    · exact forall_mem_snoc hvals hv
    · rw [map_append, map_singleton, commaSeparated_snoc (by simpa using hne)]
      simp [Element.padded]

theorem Lead.member (h : Lead (MembersText strtod n) ms lead) (hkey : StringText keyText key)
    (hw : Ws w) (hw' : Ws w') (hv : ValueText strtod n t v) :
    MembersText strtod n (lead ++ keyText ++ w ++ 0x3A :: w' ++ t) (ms ++ [(key, v)]) := by
  cases h with
  | first hlead =>
    refine ⟨[⟨⟨w', t, [], v⟩, lead, keyText, w, key⟩], by simp, by simp [hw, hw', hlead, Ws.nil], by simpa using hkey,
      by simpa using hv, ?_, rfl⟩
    simp [commaSeparated, Member.full, Element.padded]
  | @next lead' w₀ _ h hw₀ =>
    obtain ⟨members, hne, hws, hkeys, hvals, rfl, rfl⟩ := h
    refine ⟨members ++ [⟨⟨w', t, [], v⟩, w₀, keyText, w, key⟩], by simp, ?_, ?_, ?_, ?_, by simp⟩
    · exact forall_mem_snoc hws ⟨hw₀, hw, hw', Ws.nil⟩
    · exact forall_mem_snoc hkeys hkey
    · exact forall_mem_snoc hvals hv
    · rw [map_append, map_singleton, commaSeparated_snoc (by simpa using hne)]
      simp [Member.full, Element.padded]

/-! ## The steps -/

theorem Open.close (h : Open strtod n f t) (hw : Ws w) :
    ValueText strtod (n + 1) (t ++ (w ++ [if f.node.isDict then 0x7D else 0x5D])) f.node.toJson := by
  cases h with
  | freshList => exact .emptyList hw
  | freshDictionary => exact .emptyDictionary hw
  | list h =>
    obtain ⟨elems, hne, hws, hvals, ht, rfl⟩ := h.pad hw
    rw [cons_append, ← append_assoc, ht]
    exact .list hne hws hvals
  | dictionary h =>
    obtain ⟨members, hne, hws, hkeys, hvals, ht, rfl⟩ := h.pad hw
    rw [cons_append, ← append_assoc, ht]
    exact .dictionary hne hws hkeys hvals

theorem Awaiting.pad (h : Awaiting strtod frames keys pre) (hw : Ws w) : Awaiting strtod frames keys (pre ++ w) := by
  cases h with
  | root hw' => exact .root (hw'.append hw)
  | list h hdepth hlead =>
    rw [append_assoc, cons_append]
    exact .list h hdepth (hlead.pad hw)
  | @dictionary _ _ pre ms lead keyText key w₁ w₂ h hdepth hlead hkey hw₁ hw₂ =>
    have hassoc : pre ++ 0x7B :: (lead ++ keyText ++ w₁ ++ 0x3A :: w₂) ++ w =
        pre ++ 0x7B :: (lead ++ keyText ++ w₁ ++ 0x3A :: (w₂ ++ w)) := by simp
    rw [hassoc]
    exact .dictionary h hdepth hlead hkey hw₁ (hw₂.append hw)

theorem Consumed.valueStep (h : Awaiting strtod frames keys pre)
    (hstep : valueStep strtod ctx frames keys = .inl st) : ∃ t, ctx.Takes t st.ctx ∧ Consumed strtod st (pre ++ t) := by
  obtain ⟨w, hw, ⟨ctx', htakes, hdepth, rfl⟩ | ⟨ctx', htakes, hdepth, rfl⟩ | ⟨t, v, ctx', ht, htakes, rfl⟩⟩ := valueStep_cases hstep
  · refine ⟨_, htakes, ?_⟩
    rw [← append_assoc]
    exact .next (h.pad hw) hdepth .freshList
  · refine ⟨_, htakes, ?_⟩
    rw [← append_assoc]
    exact .next (h.pad hw) hdepth .freshDictionary
  · refine ⟨_, htakes, ?_⟩
    rw [← append_assoc]
    exact .deliver (h.pad hw) (.scalar ht)

theorem Consumed.deliverStep (h : Awaiting strtod frames keys pre)
    (hv : ValueText strtod (cjsonMaxParseDepth - frames.length) t v) (hstep : deliverStep v ctx frames keys = .inl st) :
    st.ctx = ctx ∧ Consumed strtod st (pre ++ t) := by
  cases h with
  | root _ => cases hstep
  | @list frames _ pre ko kl vs lead h hdepth hlead =>
    cases hstep
    rw [append_assoc, cons_append]
    exact ⟨rfl, .next h hdepth (.list (hlead.element (by rwa [length_cons] at hv)))⟩
  | @dictionary frames keys pre ms lead keyText key w w' h hdepth hlead hkey hw hw' =>
    have hread : ((keys ++ key ++ [0]).drop keys.length).take key.length = key := by simp
    have hpop : (keys ++ key ++ [0]).take keys.length = keys := by simp
    simp only [Cjson.deliverStep, hread, hpop] at hstep
    cases hstep
    rw [append_assoc, cons_append, ← memberMap_snoc]
    exact ⟨rfl, .next h hdepth (.dictionary (hlead.member hkey hw hw' (by rwa [length_cons] at hv)))⟩

theorem Open.list_lead {ko kl : Nat} {vs : List Json} {b : Bool} (h : Open strtod n ⟨.list vs, ko, kl, b⟩ t) (hw : Ws w)
    (hw' : Ws w') : ∃ lead, t ++ (w ++ (if b then [0x2C] else []) ++ w') = 0x5B :: lead ∧ Lead (ElementsText strtod n) vs lead := by
  cases h with
  | freshList => exact ⟨w ++ w', by simp, .first (hw.append hw')⟩
  | @list _ _ t _ h => exact ⟨t ++ w ++ 0x2C :: w', by simp, .next (h.pad hw) hw'⟩

theorem Open.dictionary_lead {ko kl : Nat} {members : List (List UInt8 × Json)} {b : Bool}
    (h : Open strtod n ⟨.dictionary members, ko, kl, b⟩ t) (hw : Ws w) :
    ∃ ms lead, members = memberMap ms ∧ t ++ (w ++ if b then [0x2C] else []) = 0x7B :: lead ∧
      Lead (MembersText strtod n) ms lead := by
  cases h with
  | freshDictionary => exact ⟨[], w, rfl, by simp, .first hw⟩
  | @dictionary _ _ t ms h => exact ⟨ms, t ++ w ++ [0x2C], rfl, by simp, .next (h.pad hw) Ws.nil⟩

theorem Consumed.nextStep (h : Awaiting strtod frames keys pre)
    (hdepth : frames.length < cjsonMaxParseDepth) (hopen : Open strtod (cjsonMaxParseDepth - frames.length - 1) f t)
    (hstep : nextStep f ctx frames keys = .inl st) : ∃ t', ctx.Takes t' st.ctx ∧ Consumed strtod st (pre ++ t ++ t') := by
  obtain ⟨w, hw, ⟨ctx', htakes, rfl⟩ | ⟨hdict, ctx', htakes, rfl⟩ | ⟨hlist, w', ctx', hw', htakes, rfl⟩⟩ := nextStep_cases hstep
  · refine ⟨_, htakes, ?_⟩
    have hclose := hopen.close hw
    rw [Nat.sub_add_cancel (by omega)] at hclose
    rw [append_assoc]
    exact .deliver h hclose
  · refine ⟨_, htakes, ?_⟩
    obtain ⟨node, ko, kl, started⟩ := f
    cases node with
    | list vs => cases hdict
    | dictionary members =>
      obtain ⟨ms, lead, rfl, ht, hlead⟩ := hopen.dictionary_lead hw
      rw [append_assoc, ht]
      exact .key h hdepth hlead
  · refine ⟨_, htakes, ?_⟩
    obtain ⟨node, ko, kl, started⟩ := f
    cases node with
    | list vs =>
      obtain ⟨lead, ht, hlead⟩ := hopen.list_lead hw hw'
      rw [append_assoc, ht]
      exact .value (.list h hdepth hlead)
    | dictionary members => cases hlist

theorem Consumed.keyStep {ko kl : Nat}
    (h : Awaiting strtod frames keys pre) (hdepth : frames.length < cjsonMaxParseDepth)
    (hlead : Lead (MembersText strtod (cjsonMaxParseDepth - frames.length - 1)) ms lead)
    (hstep : keyStep ⟨.dictionary (memberMap ms), ko, kl, true⟩ ctx frames keys = .inl st) :
    ∃ t, ctx.Takes t st.ctx ∧ Consumed strtod st (pre ++ 0x7B :: lead ++ t) := by
  obtain ⟨w, keyText, key, w', w'', ctx', hw, hkey, hw', hw'', htakes, rfl⟩ := keyStep_cases hstep
  refine ⟨_, htakes, ?_⟩
  have hassoc : pre ++ 0x7B :: lead ++ (w ++ keyText ++ (w' ++ [0x3A]) ++ w'') =
      pre ++ 0x7B :: (lead ++ w ++ keyText ++ w' ++ 0x3A :: w'') := by simp
  rw [hassoc]
  exact .value (.dictionary h hdepth (hlead.pad hw) hkey hw' hw'')

theorem SplitsSource.step {src : List UInt8} {st st' : ParseState} (h : SplitsSource strtod src st)
    (hstep : parseStep strtod st = .inl st') : SplitsSource strtod src st' := by
  obtain ⟨pre, rfl, hconsumed⟩ := h
  cases hconsumed with
  | value h =>
    obtain ⟨t, htakes, hnext⟩ := Consumed.valueStep h hstep
    exact ⟨_, by rw [append_assoc, ← htakes.1]; rfl, hnext⟩
  | deliver h hv =>
    obtain ⟨hctx, hnext⟩ := Consumed.deliverStep h hv hstep
    exact ⟨_, by rw [hctx]; rfl, hnext⟩
  | next h hdepth hopen =>
    obtain ⟨t, htakes, hnext⟩ := Consumed.nextStep h hdepth hopen hstep
    exact ⟨_, by rw [append_assoc _ t, ← htakes.1]; rfl, hnext⟩
  | key h hdepth hlead =>
    obtain ⟨t, htakes, hnext⟩ := Consumed.keyStep h hdepth hlead hstep
    exact ⟨_, by rw [append_assoc _ t, ← htakes.1]; rfl, hnext⟩

theorem parseStep_ok (h : parseStep strtod st = .inr (.ok (v, ctx))) :
    ∃ keys, st = .deliverStep v ctx [] keys := by
  cases st with
  | valueStep ctx frames keys =>
    simp only [parseStep, valueStep] at h
    split at h
    · cases h
    · split at h
      · split at h <;> cases h
      · split at h <;> cases h
  | deliverStep pending ctx frames keys =>
    cases frames with
    | nil =>
      cases h
      exact ⟨keys, rfl⟩
    | cons f frames =>
      simp only [parseStep, deliverStep] at h
      split at h <;> cases h
  | nextStep f ctx frames keys =>
    simp only [parseStep, nextStep] at h
    split at h
    · cases h
    · split_ifs at h <;> cases h
  | keyStep f ctx frames keys =>
    simp only [parseStep, keyStep] at h
    split at h
    · split at h
      · cases h
      · split at h <;> cases h
    · cases h

theorem parseValue_sound {src : List UInt8} (h : parseValue strtod ⟨0, src⟩ = .ok (v, ctx)) :
    ∃ w t, src = w ++ t ++ ctx.rest ∧ Ws w ∧ ValueText strtod cjsonMaxParseDepth t v := by
  have hrun := (parseMachine strtod).run_invariant (P := SplitsSource strtod src)
    (Q := fun r => ∀ v ctx, r = .ok (v, ctx) → ∃ w t, src = w ++ t ++ ctx.rest ∧ Ws w ∧ ValueText strtod cjsonMaxParseDepth t v)
    (fun _ _ hst hstep => hst.step hstep) ?_ (s := .valueStep ⟨0, src⟩ [] []) ⟨[], rfl, .value (.root Ws.nil)⟩
  · exact hrun v ctx h
  · rintro st r ⟨pre, rfl, hconsumed⟩ hhalt v ctx rfl
    obtain ⟨keys, rfl⟩ := parseStep_ok hhalt
    cases hconsumed with
    | deliver hroot hv =>
      cases hroot with
      | root hw => exact ⟨_, _, rfl, hw, hv⟩

theorem parseCommon_sound {src : List UInt8} (h : parseCommon strtod (some src) = .ok v) :
    JsonText strtod cjsonMaxParseDepth src v := by
  rw [parseCommon] at h
  dsimp only at h
  split at h
  · cases h
  · rename_i root ctx hvalue
    split_ifs at h with hend
    cases h
    obtain ⟨w, t, hsrc, hw, hv⟩ := parseValue_sound hvalue
    obtain ⟨w', hw', htakes⟩ := skipWs_takes ctx
    have hrest := htakes.1
    rw [hend, append_nil] at hrest
    exact ⟨w, t, w', hrest ▸ hsrc, hw, hw', hv⟩

end Ccollections.Cjson
