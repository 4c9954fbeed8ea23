import Ccollections.Cjson.Lemmas.ParseSound

/-!
# The parser accepts every JSON text

The machine goes from a place for a value over the text of that value to its delivery.
-/

namespace Ccollections.Cjson
open Lib List

variable {strtod : List UInt8 → UInt64} {n pos : Nat} {t w w' w'' rest keys key keyText : List UInt8} {v : Json} {c : UInt8}
  {frames : List ParseFrame} {f : ParseFrame}

theorem noWs_cons (h : isWsByte c = false) : NoWs (c :: rest) := by
  intro d hd
  cases hd
  exact h

theorem peek_append (hw : Ws w) (hc : isWsByte c = false) :
    peek ⟨pos, w ++ c :: rest⟩ = (some c, ⟨pos + w.length, c :: rest⟩) := by
  rw [peek, skipWs_append hw (noWs_cons hc)]
  rfl

def Delimited (rest : List UInt8) : Prop := ∀ c ∈ rest.head?, isWsByte c = true ∨ c = 0x2C ∨ c = 0x5D ∨ c = 0x7D

theorem Delimited.numberEnd (h : Delimited rest) : NumberEnd rest := by
  intro c hc
  rcases h c hc with hws | rfl | rfl | rfl
  · rcases isWsByte_iff.mp hws with rfl | rfl | rfl | rfl <;> decide
  · decide
  · decide
  · decide

theorem Delimited.ws_append (hw : Ws w) (h : Delimited rest) : Delimited (w ++ rest) := by
  cases w with
  | nil => exact h
  | cons d w =>
    intro c hc
    cases hc
    exact .inl (isWsByte_iff.mpr (hw d mem_cons_self))

theorem delimited_cons (hc : c = 0x2C ∨ c = 0x5D ∨ c = 0x7D) : Delimited (c :: rest) := by
  intro d hd
  cases hd
  exact .inr hc

theorem valueText_head (h : ValueText strtod n t v) :
    ∃ c t', t = c :: t' ∧ isWsByte c = false ∧ c ≠ 0x5D ∧ c ≠ 0x7D ∧ c ≠ 0x2C := by
  cases h with
  | scalar h =>
    obtain ⟨c, t', rfl, hws, -, -, hrest⟩ := scalarText_head h
    exact ⟨c, t', rfl, hws, hrest⟩
  | emptyList _ => exact ⟨_, _, rfl, by decide⟩
  | list _ _ _ => exact ⟨_, _, rfl, by decide⟩
  | emptyDictionary _ => exact ⟨_, _, rfl, by decide⟩
  | dictionary _ _ _ _ => exact ⟨_, _, rfl, by decide⟩

theorem stringText_head (h : StringText t key) : ∃ u, t = 0x22 :: u := by
  cases h
  exact ⟨_, rfl⟩

/-! ## Single steps over a text -/

theorem valueStep_scalar (pos : Nat) (frames : List ParseFrame) (keys : List UInt8) (hw : Ws w)
    (h : ScalarText strtod t v) (hrest : Delimited rest) :
    ∃ pos', valueStep strtod ⟨pos, w ++ (t ++ rest)⟩ frames keys = .inl (.deliverStep v ⟨pos', rest⟩ frames keys) := by
  obtain ⟨c, t', rfl, hws, hlist, hdict, -⟩ := scalarText_head h
  have hparse : parseScalarValue strtod ⟨pos + w.length, c :: t' ++ rest⟩ c = _ :=
    parseScalarValue_complete h hrest.numberEnd rfl
  rw [valueStep, cons_append, peek_append hw hws]
  simp only [hlist, hdict, or_self, ↓reduceIte]
  rw [cons_append] at hparse
  rw [hparse]
  exact ⟨_, rfl⟩

theorem valueStep_open (strtod : List UInt8 → UInt64) (pos : Nat) (rest : List UInt8) (frames : List ParseFrame)
    (keys : List UInt8) (hw : Ws w) (hdepth : frames.length < cjsonMaxParseDepth) (hc : c = 0x5B ∨ c = 0x7B) :
    ∃ pos', valueStep strtod ⟨pos, w ++ c :: rest⟩ frames keys =
      .inl (.nextStep ⟨if c = 0x7B then .dictionary [] else .list [], 0, 0, false⟩ ⟨pos', rest⟩ frames keys) := by
  have hws : isWsByte c = false := by rcases hc with rfl | rfl <;> rfl
  rw [valueStep, peek_append hw hws]
  simp only [if_pos hc, if_neg (Nat.not_le_of_lt hdepth)]
  exact ⟨_, rfl⟩

theorem nextStep_close (f : ParseFrame) (pos : Nat) (rest : List UInt8) (frames : List ParseFrame) (keys : List UInt8)
    (hw : Ws w) (hc : c = if f.node.isDict then 0x7D else 0x5D) :
    ∃ pos', nextStep f ⟨pos, w ++ c :: rest⟩ frames keys = .inl (.deliverStep f.node.toJson ⟨pos', rest⟩ frames keys) := by
  have hws : isWsByte c = false := by
    subst hc
    split <;> rfl
  rw [nextStep, peek_append hw hws]
  simp only [if_pos hc]
  exact ⟨_, rfl⟩

def inside (f : ParseFrame) (ctx : ParseCtx) (frames : List ParseFrame) (keys : List UInt8) : ParseState :=
  if f.node.isDict then .keyStep { f with started := true } ctx frames keys
  else .valueStep (skipWs ctx) ({ f with started := true } :: frames) keys

theorem nextStep_first (f : ParseFrame) (pos : Nat) (rest : List UInt8) (frames : List ParseFrame) (keys : List UInt8)
    (hw : Ws w) (hf : f.started = false) (hws : isWsByte c = false) (hlist : c ≠ 0x5D) (hdict : c ≠ 0x7D) :
    ∃ pos', nextStep f ⟨pos, w ++ c :: rest⟩ frames keys = .inl (inside f ⟨pos', c :: rest⟩ frames keys) := by
  have hclose : c ≠ if f.node.isDict then 0x7D else 0x5D := by split <;> assumption
  rw [nextStep, peek_append hw hws]
  simp only [if_neg hclose, hf, Bool.false_eq_true, false_and, ↓reduceIte]
  exact ⟨_, rfl⟩

theorem nextStep_more (f : ParseFrame) (pos : Nat) (rest : List UInt8) (frames : List ParseFrame) (keys : List UInt8)
    (hw : Ws w) (hf : f.started = true) :
    ∃ pos', nextStep f ⟨pos, w ++ 0x2C :: rest⟩ frames keys = .inl (inside f ⟨pos', rest⟩ frames keys) := by
  have hclose : (0x2C : UInt8) ≠ if f.node.isDict then 0x7D else 0x5D := by split <;> decide
  rw [nextStep, peek_append hw (by decide)]
  simp only [if_neg hclose, hf, ne_eq, not_true_eq_false, and_false, ↓reduceIte]
  exact ⟨_, rfl⟩

theorem keyStep_key (f : ParseFrame) (pos : Nat) (rest : List UInt8) (frames : List ParseFrame) (keys : List UInt8)
    (hw : Ws w) (hkey : StringText keyText key) (hw' : Ws w') (hw'' : Ws w'') (hc : isWsByte c = false) :
    ∃ pos', keyStep f ⟨pos, w ++ (keyText ++ (w' ++ 0x3A :: (w'' ++ c :: rest)))⟩ frames keys =
      .inl (.valueStep ⟨pos', c :: rest⟩ ({ f with keyOff := keys.length, keyLen := key.length } :: frames)
        (keys ++ key ++ [0])) := by
  have hraw : parseStringRaw ⟨pos + w.length, keyText ++ (w' ++ 0x3A :: (w'' ++ c :: rest))⟩ = _ :=
    parseStringRaw_complete hkey
  have hcolon : ∀ p, expectChar ⟨p, w' ++ 0x3A :: (w'' ++ c :: rest)⟩ 0x3A = .ok ⟨p + w'.length + 1, w'' ++ c :: rest⟩ := by
    intro p
    rw [expectChar, skipWs_append hw' (noWs_cons (by decide))]
    rfl
  obtain ⟨u, hu⟩ := stringText_head hkey
  have hskip : skipWs ⟨pos, w ++ (keyText ++ (w' ++ 0x3A :: (w'' ++ c :: rest)))⟩ =
      ⟨pos + w.length, keyText ++ (w' ++ 0x3A :: (w'' ++ c :: rest))⟩ :=
    skipWs_append hw (by rw [hu]; exact noWs_cons (by decide))
  have hquote : (keyText ++ (w' ++ 0x3A :: (w'' ++ c :: rest))).head? = some 0x22 := by rw [hu]; rfl
  simp only [keyStep, hskip, if_pos hquote, parseKey_eq, hraw, Except.map, hcolon, skipWs_append hw'' (noWs_cons hc)]
  exact ⟨_, rfl⟩

/-! ## Runs over a text -/

def Delivers (strtod : List UInt8 → UInt64) (n : Nat) (t : List UInt8) (v : Json) : Prop :=
  ∀ pos w rest frames keys, Ws w → Delimited rest → frames.length + n ≤ cjsonMaxParseDepth →
    ∃ pos', (parseMachine strtod).Reaches (.valueStep ⟨pos, w ++ (t ++ rest)⟩ frames keys)
      (.deliverStep v ⟨pos', rest⟩ frames keys)

def others (parts : List (List UInt8)) (close : UInt8) (rest : List UInt8) : List UInt8 :=
  (parts.flatMap fun q => 0x2C :: q) ++ close :: rest

theorem delimited_others {parts : List (List UInt8)} {close : UInt8} (hclose : close = 0x5D ∨ close = 0x7D) :
    Delimited (others parts close rest) := by
  cases parts with
  | nil => exact delimited_cons (.inr hclose)
  | cons q parts => exact delimited_cons (.inl rfl)

theorem others_cons (q : List UInt8) (parts : List (List UInt8)) (close : UInt8) (rest : List UInt8) :
    others (q :: parts) close rest = 0x2C :: (q ++ others parts close rest) := by
  simp [others]

theorem commaSeparated_others (q : List UInt8) (parts : List (List UInt8)) (close : UInt8) (rest : List UInt8) :
    commaSeparated (q :: parts) ++ [close] ++ rest = q ++ others parts close rest := by
  simp [commaSeparated_cons, others]

theorem inside_list {vs : List Json} {ko kl : Nat} {b : Bool} (hw : Ws w) (hws : isWsByte c = false) :
    inside ⟨.list vs, ko, kl, b⟩ ⟨pos, w ++ c :: rest⟩ frames keys =
      .valueStep ⟨pos + w.length, c :: rest⟩ (⟨.list vs, ko, kl, true⟩ :: frames) keys := by
  rw [← skipWs_append hw (noWs_cons hws)]
  rfl

theorem reaches_element {e : Element} {vs : List Json} {ko kl : Nat} {b : Bool} (hws : Ws e.before ∧ Ws e.after)
    (h : ValueText strtod n e.text e.value ∧ Delivers strtod n e.text e.value)
    (hdepth : frames.length + (n + 1) ≤ cjsonMaxParseDepth) (hrest : Delimited rest) :
    ∃ pos', (parseMachine strtod).Reaches (inside ⟨.list vs, ko, kl, b⟩ ⟨pos, e.padded ++ rest⟩ frames keys)
      (.nextStep ⟨.list (vs ++ [e.value]), ko, kl, true⟩ ⟨pos', e.after ++ rest⟩ frames keys) := by
  obtain ⟨c, t, htext, hc, -⟩ := valueText_head h.1
  have hdepth' : (⟨.list vs, ko, kl, true⟩ :: frames : List ParseFrame).length + n ≤ cjsonMaxParseDepth := by
    rw [length_cons]
    omega
  obtain ⟨pos', hreach⟩ := h.2 (pos + e.before.length) [] (e.after ++ rest) _ keys Ws.nil (hrest.ws_append hws.2) hdepth'
  have hinside : inside ⟨.list vs, ko, kl, b⟩ ⟨pos, e.padded ++ rest⟩ frames keys =
      .valueStep ⟨pos + e.before.length, e.text ++ (e.after ++ rest)⟩ (⟨.list vs, ko, kl, true⟩ :: frames) keys := by
    rw [Element.padded, htext, append_assoc, append_assoc, cons_append]
    exact inside_list hws.1 hc
  rw [hinside]
  exact ⟨pos', hreach.tail rfl⟩

theorem reaches_elements {elems : List Element} {vs : List Json} {ko kl : Nat} (hw : Ws w)
    (hws : ∀ e ∈ elems, Ws e.before ∧ Ws e.after)
    (h : ∀ e ∈ elems, ValueText strtod n e.text e.value ∧ Delivers strtod n e.text e.value)
    (hdepth : frames.length + (n + 1) ≤ cjsonMaxParseDepth) :
    ∃ pos', (parseMachine strtod).Reaches
      (.nextStep ⟨.list vs, ko, kl, true⟩ ⟨pos, w ++ others (elems.map Element.padded) 0x5D rest⟩ frames keys)
      (.deliverStep (.list (vs ++ elems.map Element.value)) ⟨pos', rest⟩ frames keys) := by
  induction elems generalizing vs w pos with
  | nil =>
    obtain ⟨pos', hclose⟩ := nextStep_close ⟨.list vs, ko, kl, true⟩ pos rest frames keys hw rfl
    simp only [map_nil, append_nil]
    exact ⟨pos', .single hclose⟩
  | cons e elems ih =>
    obtain ⟨hwse, hwselems⟩ := forall_mem_cons.mp hws
    obtain ⟨he, helems⟩ := forall_mem_cons.mp h
    rw [map_cons, others_cons]
    obtain ⟨pos₁, hmore⟩ := nextStep_more ⟨.list vs, ko, kl, true⟩ pos
      (e.padded ++ others (elems.map Element.padded) 0x5D rest) frames keys hw rfl
    obtain ⟨pos₂, helem⟩ := reaches_element hwse he hdepth (delimited_others (.inl rfl))
    obtain ⟨pos₃, hrest⟩ := ih hwse.2 hwselems helems
    rw [append_assoc] at hrest
    exact ⟨pos₃, .head hmore (helem.trans hrest)⟩

theorem reaches_member {m : Member} (ms : List (List UInt8 × Json)) {ko kl : Nat} {b : Bool}
    (hws : Ws m.beforeKey ∧ Ws m.afterKey ∧ Ws m.before ∧ Ws m.after) (hkey : StringText m.keyText m.key)
    (h : ValueText strtod n m.text m.value ∧ Delivers strtod n m.text m.value)
    (hdepth : frames.length + (n + 1) ≤ cjsonMaxParseDepth) (hrest : Delimited rest) :
    ∃ pos', (parseMachine strtod).Reaches (inside ⟨.dictionary (memberMap ms), ko, kl, b⟩ ⟨pos, m.full ++ rest⟩ frames keys)
      (.nextStep ⟨.dictionary (memberMap (ms ++ [(m.key, m.value)])), keys.length, m.key.length, true⟩
        ⟨pos', m.after ++ rest⟩ frames keys) := by
  obtain ⟨hbeforeKey, hafterKey, hbefore, hafter⟩ := hws
  obtain ⟨c, t, htext, hc, -⟩ := valueText_head h.1
  obtain ⟨pos₁, hstep⟩ := keyStep_key ⟨.dictionary (memberMap ms), ko, kl, true⟩ pos (t ++ (m.after ++ rest)) frames keys
    hbeforeKey hkey hafterKey hbefore hc
  have hfull : m.full ++ rest =
      m.beforeKey ++ (m.keyText ++ (m.afterKey ++ 0x3A :: (m.before ++ c :: (t ++ (m.after ++ rest))))) := by
    simp [Member.full, Element.padded, htext]
  rw [← hfull, ← cons_append, ← htext] at hstep
  have hdepth' : (⟨.dictionary (memberMap ms), keys.length, m.key.length, true⟩ :: frames : List ParseFrame).length + n
      ≤ cjsonMaxParseDepth := by
    rw [length_cons]
    omega
  obtain ⟨pos₂, hreach⟩ := h.2 pos₁ [] (m.after ++ rest) _ (keys ++ m.key ++ [0]) Ws.nil (hrest.ws_append hafter) hdepth'
  have hdeliver : deliverStep m.value ⟨pos₂, m.after ++ rest⟩
      (⟨.dictionary (memberMap ms), keys.length, m.key.length, true⟩ :: frames) (keys ++ m.key ++ [0]) =
      .inl (.nextStep ⟨.dictionary (memberMap (ms ++ [(m.key, m.value)])), keys.length, m.key.length, true⟩
        ⟨pos₂, m.after ++ rest⟩ frames keys) := by
    simp [deliverStep, memberMap_snoc]
  exact ⟨pos₂, .head hstep (hreach.tail hdeliver)⟩

theorem reaches_members {members : List Member} {ms : List (List UInt8 × Json)} {ko kl : Nat} (hw : Ws w)
    (hws : ∀ m ∈ members, Ws m.beforeKey ∧ Ws m.afterKey ∧ Ws m.before ∧ Ws m.after)
    (hkeys : ∀ m ∈ members, StringText m.keyText m.key)
    (h : ∀ m ∈ members, ValueText strtod n m.text m.value ∧ Delivers strtod n m.text m.value)
    (hdepth : frames.length + (n + 1) ≤ cjsonMaxParseDepth) :
    ∃ pos', (parseMachine strtod).Reaches
      (.nextStep ⟨.dictionary (memberMap ms), ko, kl, true⟩
        ⟨pos, w ++ others (members.map Member.full) 0x7D rest⟩ frames keys)
      (.deliverStep (.dictionary (memberMap (ms ++ members.map fun m => (m.key, m.value)))) ⟨pos', rest⟩ frames keys) := by
  induction members generalizing ms w pos ko kl with
  | nil =>
    obtain ⟨pos', hclose⟩ := nextStep_close ⟨.dictionary (memberMap ms), ko, kl, true⟩ pos rest frames keys hw rfl
    simp only [map_nil, append_nil]
    exact ⟨pos', .single hclose⟩
  | cons m members ih =>
    obtain ⟨hwsm, hwsmembers⟩ := forall_mem_cons.mp hws
    obtain ⟨hkey, hkeys⟩ := forall_mem_cons.mp hkeys
    obtain ⟨hm, hmembers⟩ := forall_mem_cons.mp h
    rw [map_cons, others_cons]
    obtain ⟨pos₁, hmore⟩ := nextStep_more ⟨.dictionary (memberMap ms), ko, kl, true⟩ pos
      (m.full ++ others (members.map Member.full) 0x7D rest) frames keys hw rfl
    obtain ⟨pos₂, hmember⟩ := reaches_member ms hwsm hkey hm hdepth (delimited_others (.inr rfl))
    obtain ⟨pos₃, hrest⟩ := ih hwsm.2.2.2 hwsmembers hkeys hmembers
    rw [append_assoc] at hrest
    exact ⟨pos₃, .head hmore (hmember.trans hrest)⟩

/-! ## Containers -/

theorem delivers_emptyContainer (hw' : Ws w') (hc : c = 0x5B ∨ c = 0x7B) :
    Delivers strtod (n + 1) (c :: (w' ++ [if c = 0x7B then 0x7D else 0x5D]))
      (if c = 0x7B then .dictionary [] else .list []) := by
  intro pos w rest frames keys hw hrest hdepth
  have htext : c :: (w' ++ [if c = 0x7B then 0x7D else 0x5D]) ++ rest =
      c :: (w' ++ (if c = 0x7B then 0x7D else 0x5D) :: rest) := by simp
  obtain ⟨pos₁, hopen⟩ := valueStep_open strtod pos (w' ++ (if c = 0x7B then 0x7D else 0x5D) :: rest) frames keys hw
    (by omega) hc
  rw [htext]
  rcases hc with rfl | rfl
  · obtain ⟨pos₂, hclose⟩ := nextStep_close ⟨.list [], 0, 0, false⟩ pos₁ rest frames keys hw' rfl
    exact ⟨pos₂, .head hopen (.single hclose)⟩
  · obtain ⟨pos₂, hclose⟩ := nextStep_close ⟨.dictionary [], 0, 0, false⟩ pos₁ rest frames keys hw' rfl
    exact ⟨pos₂, .head hopen (.single hclose)⟩

theorem delivers_list {e : Element} {elems : List Element} (hws : ∀ x ∈ e :: elems, Ws x.before ∧ Ws x.after)
    (h : ∀ x ∈ e :: elems, ValueText strtod n x.text x.value ∧ Delivers strtod n x.text x.value) :
    Delivers strtod (n + 1) (0x5B :: (commaSeparated ((e :: elems).map Element.padded) ++ [0x5D]))
      (.list ((e :: elems).map Element.value)) := by
  intro pos w rest frames keys hw hrest hdepth
  obtain ⟨hwse, hwselems⟩ := forall_mem_cons.mp hws
  obtain ⟨he, helems⟩ := forall_mem_cons.mp h
  obtain ⟨c, t, htext, hc, hlist, hdict, -⟩ := valueText_head he.1
  -- The white space before the first element is taken before the machine goes inside.
  let first : Element := { e with before := [] }
  have hfirst : e.padded = e.before ++ first.padded := by simp [Element.padded, first]
  obtain ⟨pos₁, hopen⟩ := valueStep_open strtod pos (e.padded ++ others (elems.map Element.padded) 0x5D rest) frames keys hw
    (by omega) (.inl rfl)
  obtain ⟨pos₂, hstart⟩ := nextStep_first ⟨.list [], 0, 0, false⟩ pos₁
    (t ++ e.after ++ others (elems.map Element.padded) 0x5D rest) frames keys hwse.1 rfl hc hlist hdict
  have hhead : first.padded ++ others (elems.map Element.padded) 0x5D rest =
      c :: (t ++ e.after ++ others (elems.map Element.padded) 0x5D rest) := by simp [Element.padded, first, htext]
  rw [← hhead, ← append_assoc, ← hfirst] at hstart
  have hwsfirst : Ws first.before ∧ Ws first.after := ⟨Ws.nil, hwse.2⟩
  obtain ⟨pos₃, helem⟩ := reaches_element hwsfirst he hdepth (delimited_others (.inl rfl))
  obtain ⟨pos₄, hrest⟩ := reaches_elements hwse.2 hwselems helems hdepth
  rw [map_cons, cons_append, commaSeparated_others]
  exact ⟨pos₄, .head hopen (.head hstart (helem.trans hrest))⟩

theorem delivers_dictionary {m : Member} {members : List Member}
    (hws : ∀ x ∈ m :: members, Ws x.beforeKey ∧ Ws x.afterKey ∧ Ws x.before ∧ Ws x.after)
    (hkeys : ∀ x ∈ m :: members, StringText x.keyText x.key)
    (h : ∀ x ∈ m :: members, ValueText strtod n x.text x.value ∧ Delivers strtod n x.text x.value) :
    Delivers strtod (n + 1) (0x7B :: (commaSeparated ((m :: members).map Member.full) ++ [0x7D]))
      (.dictionary (memberMap ((m :: members).map fun x => (x.key, x.value)))) := by
  intro pos w rest frames keys hw hrest hdepth
  obtain ⟨hwsm, hwsmembers⟩ := forall_mem_cons.mp hws
  obtain ⟨hkey, hkeys⟩ := forall_mem_cons.mp hkeys
  obtain ⟨hm, hmembers⟩ := forall_mem_cons.mp h
  obtain ⟨u, hu⟩ := stringText_head hkey
  let first : Member := { m with beforeKey := [] }
  have hfirst : m.full = m.beforeKey ++ first.full := by simp [Member.full, Element.padded, first]
  obtain ⟨pos₁, hopen⟩ := valueStep_open strtod pos (m.full ++ others (members.map Member.full) 0x7D rest) frames keys hw
    (by omega) (.inr rfl)
  obtain ⟨pos₂, hstart⟩ := nextStep_first ⟨.dictionary [], 0, 0, false⟩ pos₁
    (u ++ m.afterKey ++ 0x3A :: m.padded ++ others (members.map Member.full) 0x7D rest) frames keys hwsm.1 rfl
    (c := 0x22) (by decide) (by decide) (by decide)
  have hhead : first.full ++ others (members.map Member.full) 0x7D rest =
      0x22 :: (u ++ m.afterKey ++ 0x3A :: m.padded ++ others (members.map Member.full) 0x7D rest) := by
    simp [Member.full, Element.padded, first, hu]
  rw [← hhead, ← append_assoc, ← hfirst] at hstart
  have hwsfirst : Ws first.beforeKey ∧ Ws first.afterKey ∧ Ws first.before ∧ Ws first.after := ⟨Ws.nil, hwsm.2⟩
  obtain ⟨pos₃, hmember⟩ := reaches_member [] hwsfirst hkey hm hdepth (delimited_others (.inr rfl))
  obtain ⟨pos₄, hrest⟩ := reaches_members hwsm.2.2.2 hwsmembers hkeys hmembers hdepth
  rw [map_cons, cons_append, commaSeparated_others]
  exact ⟨pos₄, .head hopen (.head hstart (hmember.trans hrest))⟩

theorem delivers_of_valueText (h : ValueText strtod n t v) : Delivers strtod n t v := by
  induction h with
  | scalar h =>
    intro pos w rest frames keys hw hrest hdepth
    obtain ⟨pos', hstep⟩ := valueStep_scalar pos frames keys hw h hrest
    exact ⟨pos', .single hstep⟩
  | emptyList hw => exact delivers_emptyContainer hw (.inl rfl)
  | @list n elems hne hws h ih =>
    cases elems with
    | nil => exact absurd rfl hne
    | cons e elems => exact delivers_list hws fun x hx => ⟨h x hx, ih x hx⟩
  | emptyDictionary hw => exact delivers_emptyContainer hw (.inr rfl)
  | @dictionary n members hne hws hkeys h ih =>
    cases members with
    | nil => exact absurd rfl hne
    | cons m members => exact delivers_dictionary hws hkeys fun x hx => ⟨h x hx, ih x hx⟩

theorem parseCommon_complete {src : List UInt8} (h : JsonText strtod cjsonMaxParseDepth src v) :
    parseCommon strtod (some src) = .ok v := by
  obtain ⟨w, t, w', rfl, hw, hw', h⟩ := h
  have hend : Delimited w' := by
    rw [← append_nil w']
    exact Delimited.ws_append hw' (by simp [Delimited])
  obtain ⟨pos, hreach⟩ := delivers_of_valueText h 0 w w' [] [] hw hend (Nat.zero_add _).le
  have hvalue : parseValue strtod ⟨0, w ++ t ++ w'⟩ = .ok (v, ⟨pos, w'⟩) := by
    rw [parseValue, append_assoc, hreach.run]
    exact Machine.run_halt rfl
  have hskip : skipWs ⟨pos, w'⟩ = ⟨pos + w'.length, []⟩ := by
    have hskip : skipWs ⟨pos, w' ++ []⟩ = ⟨pos + w'.length, []⟩ := skipWs_append hw' (by simp [NoWs])
    rwa [append_nil] at hskip
  rw [parseCommon, hvalue]
  simp only [hskip, ↓reduceIte]

end Ccollections.Cjson
