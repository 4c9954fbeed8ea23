import Ccollections.Cjson.Lemmas.ParseComplete
import Ccollections.Cjson.Lemmas.SerializeScalar

/-!
# What the serializer writes for a tree

The machine goes from a value to the place after it and writes a JSON text of that value on the way.
-/

namespace Ccollections.Cjson
open Lib List

/-! ## Trees -/

def NodeString (s : List UInt8) : Prop := WellFormedUtf8 s ∧ 0 ∉ s

inductive Tree : Nat → Json → Prop
  | null {n} : Tree n .null
  | bool {n b} : Tree n (.bool b)
  | integer {n i} : Tree n (.integer i)
  | float {n d} (h : isFinite d = true) : Tree n (.float d)
  | string {n s} (h : NodeString s) : Tree n (.string s)
  | list {n elems} (h : ∀ e ∈ elems, Tree n e) : Tree (n + 1) (.list elems)
  | dictionary {n} {members : List (List UInt8 × Json)} (hkeys : (members.map Prod.fst).Nodup)
      (hstrings : ∀ m ∈ members, NodeString m.1) (h : ∀ m ∈ members, Tree n m.2) : Tree (n + 1) (.dictionary members)

inductive HoldsDouble (d : UInt64) : Json → Prop
  | float : HoldsDouble d (.float d)
  | list {elems e} (he : e ∈ elems) (h : HoldsDouble d e) : HoldsDouble d (.list elems)
  | dictionary {members} {m : List UInt8 × Json} (hm : m ∈ members) (h : HoldsDouble d m.2) : HoldsDouble d (.dictionary members)

/-! ## Runs of the machine -/

variable {env : SerializeEnv} {indent : UInt32} {sb sb' : Sbuf} {t t' : List UInt8} {st st' st'' : Sbuf → SerializeState}
  {n depth emitted : Nat} {frames : List SerializeFrame} {v : Json}

def SerializeState.buffer : SerializeState → Sbuf
  | .value _ _ _ sb => sb
  | .next _ sb => sb

theorem sbAppend_oom (h : sb.oom = true) : sbAppend env sb t = sb := by rw [sbAppend, if_pos h]

theorem indentLoop_oom (h : sb.oom = true) (width : Nat) : indentLoop env sb width = sb := by
  induction width using Nat.strongRecOn with
  | ind width ih =>
    rw [indentLoop]
    split
    · rfl
    · rw [sbAppend_oom h]
      exact ih _ (by omega)

theorem sbAppendIndent_oom (h : sb.oom = true) : (sbAppendIndent env sb indent depth).oom = true := by
  simp only [sbAppendIndent, sbAppend_oom h, indentLoop_oom h]
  split_ifs
  · exact h
  · rfl
  · exact h

theorem jsonStrLoop_oom (h : sb.oom = true) (s : List UInt8) : jsonStrLoop env sb s = sb := by
  induction hn : s.length using Nat.strongRecOn generalizing s with
  | ind n ih =>
    rw [jsonStrLoop.eq_def]
    split
    · rfl
    · rfl
    · simp only [sbAppend_oom h, ite_self]
      split
      · rfl
      · rename_i d rest hrest
        have hlen := congrArg List.length hrest
        simp only [length_drop, length_cons] at hlen hn
        split
        · rfl
        · exact ih rest.length (by omega) rest rfl

theorem sbAppendJsonStr_oom (h : sb.oom = true) (s : List UInt8) : sbAppendJsonStr env sb s = sb := by
  simp only [sbAppendJsonStr, sbAppendC, sbAppend_oom h, jsonStrLoop_oom h]

theorem beforeChild_oom (h : sb.oom = true) (f : SerializeFrame) : (beforeChild env indent f sb).oom = true := by
  rw [beforeChild]
  split
  · rw [sbAppendC, sbAppend_oom h]
    exact sbAppendIndent_oom h
  · exact sbAppendIndent_oom h

theorem closeContainer_oom (h : sb.oom = true) (f : SerializeFrame) : (closeContainer env indent f sb).oom = true := by
  have hindent : (if heldAny f then sbAppendIndent env sb indent f.depth else sb).oom = true := by
    split
    · exact sbAppendIndent_oom h
    · exact h
  rw [closeContainer, sbAppendC, sbAppend_oom hindent]
  exact hindent

theorem serializeStep_oom (s s' : SerializeState) (h : s.buffer.oom = true) (hstep : serializeStep env indent s = .inl s') :
    s'.buffer.oom = true := by
  cases s with
  | value cur curDepth frames sb =>
    change sb.oom = true at h
    simp only [serializeStep, serializeValue, h, ↓reduceIte] at hstep
    cases hstep
  | next frames sb =>
    change sb.oom = true at h
    cases frames with
    | nil => cases hstep
    | cons f frames =>
      simp only [serializeStep, serializeNext] at hstep
      split at hstep
      · split at hstep
        · cases hstep
          exact beforeChild_oom h f
        · cases hstep
          exact closeContainer_oom h f
      · split at hstep
        · cases hstep
          have hoom : (beforeChild env indent f sb).oom = true := beforeChild_oom h f
          simp only [SerializeState.buffer, sbAppendC, sbAppendJsonStr_oom hoom, sbAppend_oom hoom, ite_self]
          exact hoom
        · cases hstep
          exact closeContainer_oom h f

theorem run_oom {s : SerializeState} (h : s.buffer.oom = true) : ((serializeMachine env indent).run s).oom = true := by
  apply Machine.run_invariant (m := serializeMachine env indent) (P := fun s => s.buffer.oom = true) (Q := fun sb => sb.oom = true)
    serializeStep_oom _ h
  intro s r hoom hhalt
  cases s with
  | value cur curDepth frames sb =>
    change sb.oom = true at hoom
    change serializeValue env cur curDepth frames sb = .inr r at hhalt
    simp only [serializeValue, hoom, ↓reduceIte] at hhalt
    cases hhalt
    exact hoom
  | next frames sb =>
    cases frames with
    | nil =>
      cases hhalt
      exact hoom
    | cons f frames =>
      change serializeNext env indent (f :: frames) sb = .inr r at hhalt
      simp only [serializeNext] at hhalt
      split at hhalt <;> split at hhalt <;> cases hhalt

/-- The machine goes from one state to another and writes a text on the way, or ends without room. -/
def Emits (env : SerializeEnv) (indent : UInt32) (st : Sbuf → SerializeState) (t : List UInt8) (st' : Sbuf → SerializeState) : Prop :=
  ∀ sb, ∃ sb', Wrote env sb t sb' ∧ (sb'.oom = false → (serializeMachine env indent).Reaches (st sb) (st' sb')) ∧
    (sb'.oom = true → ((serializeMachine env indent).run (st sb)).oom = true)

theorem Emits.trans (h : Emits env indent st t st') (h' : Emits env indent st' t' st'') : Emits env indent st (t ++ t') st'' := by
  intro sb
  obtain ⟨sb₁, hwrote, hreach, hoom⟩ := h sb
  obtain ⟨sb₂, hwrote', hreach', hoom'⟩ := h' sb₁
  refine ⟨sb₂, hwrote.trans hwrote', ?_, ?_⟩
  · intro hok
    exact (hreach (hwrote'.1 hok).1).trans (hreach' hok)
  · intro hbad
    cases hmid : sb₁.oom with
    | true => exact hoom hmid
    | false =>
      rw [(hreach hmid).run]
      exact hoom' hbad

theorem emits_step (hwrote : ∀ sb, ∃ sb', Wrote env sb t sb' ∧ (sb.oom = false → sb'.oom = false →
      serializeStep env indent (st sb) = .inl (st' sb')) ∧
      (sb.oom = false → sb'.oom = true → ((serializeMachine env indent).run (st sb)).oom = true))
    (hst : ∀ sb, (st sb).buffer = sb) : Emits env indent st t st' := by
  intro sb
  obtain ⟨sb', hwrote, hstep, hoom⟩ := hwrote sb
  refine ⟨sb', hwrote, ?_, ?_⟩
  · intro hok
    exact .single (hstep (hwrote.1 hok).1 hok)
  · intro hbad
    cases hsb : sb.oom with
    | true => exact run_oom (by rw [hst, hsb])
    | false => exact hoom hsb hbad

theorem emits_next (write : Sbuf → Sbuf) (hst : ∀ sb, (st sb).buffer = sb) (hst' : ∀ sb, (st' sb).buffer = sb)
    (hwrote : ∀ sb, Wrote env sb t (write sb))
    (hstep : ∀ sb, sb.oom = false → serializeStep env indent (st sb) = .inl (st' (write sb))) : Emits env indent st t st' := by
  apply emits_step _ hst
  intro sb
  refine ⟨write sb, hwrote sb, fun hsb _ => hstep sb hsb, ?_⟩
  intro hsb hbad
  rw [Machine.run_step (hstep sb hsb)]
  exact run_oom (by rw [hst', hbad])

theorem emits_scalar (hv : ∀ elems, v ≠ .list elems) (hv' : ∀ members, v ≠ .dictionary members)
    (hwrote : ∀ sb, Wrote env sb t (serializeScalar env sb (some v))) :
    Emits env indent (.value (some v) depth frames) t (.next frames) := by
  apply emits_next _ (fun _ => rfl) (fun _ => rfl) hwrote
  intro sb hsb
  simp only [serializeStep, serializeValue, hsb, Bool.false_eq_true, ↓reduceIte]
  split
  · rename_i heq
    exact absurd (Option.some.inj heq) (hv _)
  · rename_i heq
    exact absurd (Option.some.inj heq) (hv' _)
  · rfl

theorem emits_open (node : Container) (hdepth : depth < cjsonMaxSerializeDepth) :
    Emits env indent (.value (some node.toJson) depth frames) [if node.isDict then 0x7B else 0x5B]
      (.next (⟨node, 0, depth⟩ :: frames)) := by
  have hopen : ∀ sb : Sbuf, sb.oom = false →
      serializeStep env indent (.value (some node.toJson) depth frames sb) = openContainer env node depth frames sb := by
    intro sb hsb
    cases node <;> simp only [serializeStep, serializeValue, Container.toJson, hsb, Bool.false_eq_true, ↓reduceIte]
  apply emits_step _ fun _ => rfl
  intro sb
  have hwrote : Wrote env sb [if node.isDict then 0x7B else 0x5B] (sbAppendC env sb (if node.isDict then 0x7B else 0x5B)) :=
    wrote_sbAppend sb _
  specialize hopen sb
  rw [openContainer, if_neg (Nat.not_le_of_lt hdepth)] at hopen
  dsimp only at hopen
  generalize sbAppendC env sb (if node.isDict then 0x7B else 0x5B) = sb₁ at hwrote hopen
  cases hroom : env.room sb₁.requests frames.length with
  | true =>
    rw [if_pos hroom] at hopen
    refine ⟨{ sb₁ with requests := sb₁.requests + 1 }, hwrote, fun hsb _ => hopen hsb, ?_⟩
    intro hsb hbad
    rw [Machine.run_step (hopen hsb)]
    exact run_oom hbad
  | false =>
    have hsome : ¬∀ i n, env.room i n = true := fun h => by simp [h] at hroom
    rw [if_neg (by simp [hroom])] at hopen
    refine ⟨{ sb₁ with oom := true, requests := sb₁.requests + 1 }, ⟨by rintro ⟨⟩, fun h => absurd h hsome⟩, by rintro _ ⟨⟩, ?_⟩
    intro hsb _
    rw [Machine.run_halt (hopen hsb)]

theorem wrote_beforeChild (sb : Sbuf) (f : SerializeFrame) (hdepth : f.depth < cjsonMaxSerializeDepth) :
    Wrote env sb ((if f.emitted > 0 then [0x2C] else []) ++ indentText indent (f.depth + 1)) (beforeChild env indent f sb) :=
  (wrote_if _ (wrote_sbAppend sb [0x2C])).trans (wrote_sbAppendIndent _ indent hdepth)

theorem emits_close (f : SerializeFrame) (hdepth : f.depth < cjsonMaxSerializeDepth)
    (hdone : ∀ sb, serializeStep env indent (.next (f :: frames) sb) = .inl (.next frames (closeContainer env indent f sb))) :
    Emits env indent (.next (f :: frames))
      ((if heldAny f then indentText indent f.depth else []) ++ [if f.node.isDict then 0x7D else 0x5D]) (.next frames) := by
  apply emits_next _ (fun _ => rfl) (fun _ => rfl) _ fun sb _ => hdone sb
  intro sb
  exact (wrote_if _ (wrote_sbAppendIndent sb indent hdepth.le)).trans (wrote_sbAppend _ _)

theorem emits_child {elems : List Json} {child : Json} (hdepth : depth < cjsonMaxSerializeDepth)
    (hchild : elems[emitted]? = some child) :
    Emits env indent (.next (⟨.list elems, emitted, depth⟩ :: frames))
      ((if emitted > 0 then [0x2C] else []) ++ indentText indent (depth + 1))
      (.value (some child) (depth + 1) (⟨.list elems, emitted + 1, depth⟩ :: frames)) := by
  apply emits_next _ (fun _ => rfl) (fun _ => rfl) (fun sb => wrote_beforeChild sb ⟨.list elems, emitted, depth⟩ hdepth)
  intro sb _
  simp only [serializeStep, serializeNext, hchild]

def colonText (indent : UInt32) : List UInt8 := if indent = 0 then [] else [0x20]

theorem emits_member {members : List (List UInt8 × Json)} {key : List UInt8} {child : Json}
    (hdepth : depth < cjsonMaxSerializeDepth) (hchild : members[emitted]? = some (key, child)) (hnul : 0 ∉ key) :
    Emits env indent (.next (⟨.dictionary members, emitted, depth⟩ :: frames))
      (((if emitted > 0 then [0x2C] else []) ++ indentText indent (depth + 1)) ++
        ((0x22 :: (key.flatMap jsonByte ++ [0x22])) ++ ([0x3A] ++ colonText indent)))
      (.value (some child) (depth + 1) (⟨.dictionary members, emitted + 1, depth⟩ :: frames)) := by
  apply emits_next (fun sb =>
      let sb := sbAppendC env (sbAppendJsonStr env (beforeChild env indent ⟨.dictionary members, emitted, depth⟩ sb) key) 0x3A
      if indent = 0 then sb else sbAppendC env sb 0x20) (fun _ => rfl) (fun _ => rfl)
  · intro sb
    have hcolon : ∀ sb, Wrote env sb (colonText indent) (if indent = 0 then sb else sbAppendC env sb 0x20) := by
      intro sb
      rw [colonText]
      split
      · exact .refl sb
      · exact wrote_sbAppend sb _
    exact (wrote_beforeChild sb ⟨.dictionary members, emitted, depth⟩ hdepth).trans
      ((wrote_sbAppendJsonStr _ hnul).trans ((wrote_sbAppend _ [0x3A]).trans (hcolon _)))
  · intro sb _
    simp only [serializeStep, serializeNext, hchild]

/-! ## Containers -/

def Serialized (env : SerializeEnv) (indent : UInt32) (n : Nat) (v : Json) : Prop :=
  ∀ depth frames, depth + n ≤ cjsonMaxSerializeDepth →
    ∃ t, ValueText env.strtod n t v ∧ Emits env indent (.value (some v) depth frames) t (.next frames)

theorem serialized_scalar (hv : ∀ elems, v ≠ .list elems) (hv' : ∀ members, v ≠ .dictionary members)
    (htext : ScalarText env.strtod t v) (hwrote : ∀ sb, Wrote env sb t (serializeScalar env sb (some v))) :
    Serialized env indent n v := by
  intro depth frames _
  exact ⟨t, .scalar htext, emits_scalar hv hv' hwrote⟩

theorem emits_elements {elems : List Json} (h : ∀ e ∈ elems, Serialized env indent n e)
    (hdepth : depth + (n + 1) ≤ cjsonMaxSerializeDepth) {i : Nat} (hi : i ≤ elems.length) :
    ∃ t, Open env.strtod n ⟨.list (elems.take i), 0, 0, decide (i > 0)⟩ t ∧
      Emits env indent (.value (some (.list elems)) depth frames) t (.next (⟨.list elems, i, depth⟩ :: frames)) := by
  induction i with
  | zero => exact ⟨[0x5B], .freshList, emits_open (.list elems) (by omega)⟩
  | succ i ih =>
    obtain ⟨t, hopen, hemits⟩ := ih (by omega)
    have hget : elems[i]? = some elems[i] := List.getElem?_eq_getElem hi
    obtain ⟨t', htext, hvalue⟩ := h elems[i] (getElem_mem hi) (depth + 1) (⟨.list elems, i + 1, depth⟩ :: frames) (by omega)
    obtain ⟨lead, hlead, hleads⟩ := hopen.list_lead Ws.nil (ws_indentText indent (depth + 1))
    refine ⟨0x5B :: (lead ++ t'), ?_, ?_⟩
    · have helems := hleads.element htext
      rw [take_succ_eq_append_getElem hi]
      exact .list helems
    · rw [← cons_append, ← hlead]
      have hchild : Emits env indent (.next (⟨.list elems, i, depth⟩ :: frames)) _ _ := emits_child (by omega) hget
      have hall := (hemits.trans hchild).trans hvalue
      simpa using hall

theorem serialized_list {elems : List Json} (h : ∀ e ∈ elems, Serialized env indent n e) :
    Serialized env indent (n + 1) (.list elems) := by
  intro depth frames hdepth
  obtain ⟨t, hopen, hemits⟩ := emits_elements h hdepth le_rfl
  rw [take_length] at hopen
  have hws : Ws (if heldAny ⟨.list elems, elems.length, depth⟩ then indentText indent depth else []) := by
    split
    · exact ws_indentText indent depth
    · exact Ws.nil
  refine ⟨_, hopen.close hws, hemits.trans ?_⟩
  apply emits_close ⟨.list elems, elems.length, depth⟩ (show depth < cjsonMaxSerializeDepth by omega)
  intro sb
  simp [serializeStep, serializeNext]

theorem dictPut_fresh {members : List (List UInt8 × Json)} {key : List UInt8} (h : key ∉ members.map Prod.fst) (v : Json) :
    dictPut members key v = members ++ [(key, v)] := by
  have hlookup : OrderedMap.lookup (· == ·) members key = none := by
    rw [OrderedMap.lookup_eq_none_iff]
    intro e he
    have hne : e.1 ≠ key := fun heq => h (heq ▸ mem_map_of_mem he)
    simpa using hne
  rw [dictPut, hlookup]

theorem ws_colonText (indent : UInt32) : Ws (colonText indent) := by
  rw [colonText]
  split
  · exact Ws.nil
  · simp [Ws]

theorem emits_members {members : List (List UInt8 × Json)} (hkeys : (members.map Prod.fst).Nodup)
    (hstrings : ∀ m ∈ members, NodeString m.1) (h : ∀ m ∈ members, Serialized env indent n m.2)
    (hdepth : depth + (n + 1) ≤ cjsonMaxSerializeDepth) {i : Nat} (hi : i ≤ members.length) :
    ∃ t, Open env.strtod n ⟨.dictionary (members.take i), 0, 0, decide (i > 0)⟩ t ∧
      Emits env indent (.value (some (.dictionary members)) depth frames) t (.next (⟨.dictionary members, i, depth⟩ :: frames)) := by
  induction i with
  | zero => exact ⟨[0x7B], .freshDictionary, emits_open (.dictionary members) (by omega)⟩
  | succ i ih =>
    obtain ⟨t, hopen, hemits⟩ := ih (by omega)
    have hmem : members[i] ∈ members := getElem_mem hi
    have hget : members[i]? = some (members[i].1, members[i].2) := List.getElem?_eq_getElem hi
    have hsplit : members.take (i + 1) = members.take i ++ [members[i]] := take_succ_eq_append_getElem hi
    have hfresh : members[i].1 ∉ (members.take i).map Prod.fst := by
      have hsub := (List.Sublist.map Prod.fst (take_sublist (i + 1) members)).nodup hkeys
      rw [hsplit, map_append] at hsub
      intro hin
      exact (nodup_append.mp hsub).2.2 _ hin _ (by simp) rfl
    obtain ⟨t', htext, hvalue⟩ := h members[i] hmem (depth + 1) (⟨.dictionary members, i + 1, depth⟩ :: frames) (by omega)
    obtain ⟨ms, lead, hms, hlead, hleads⟩ := hopen.dictionary_lead Ws.nil
    obtain ⟨hutf8, hnul⟩ := hstrings members[i] hmem
    have hmembers := (hleads.pad (ws_indentText indent (depth + 1))).member (stringText_jsonBytes hutf8 hnul) Ws.nil
      (ws_colonText indent) htext
    have hmap : members.take (i + 1) = memberMap (ms ++ [(members[i].1, members[i].2)]) := by
      rw [memberMap_snoc, ← hms, dictPut_fresh hfresh, hsplit]
    rw [hmap]
    refine ⟨_, .dictionary hmembers, ?_⟩
    have hmember : Emits env indent (.next (⟨.dictionary members, i, depth⟩ :: frames)) _ _ := emits_member (by omega) hget hnul
    have hall := (hemits.trans hmember).trans hvalue
    have hlead' : t ++ (if i > 0 then [0x2C] else []) = 0x7B :: lead := by simpa using hlead
    have hwhole : t ++ ((if i > 0 then [0x2C] else []) ++ indentText indent (depth + 1) ++
          ((0x22 :: (members[i].1.flatMap jsonByte ++ [0x22])) ++ ([0x3A] ++ colonText indent))) ++ t' =
        0x7B :: (lead ++ indentText indent (depth + 1) ++ 0x22 :: (members[i].1.flatMap jsonByte ++ [0x22]) ++ [] ++
          0x3A :: colonText indent ++ t') := by
      calc _ = (t ++ if i > 0 then [0x2C] else []) ++ (indentText indent (depth + 1) ++
              ((0x22 :: (members[i].1.flatMap jsonByte ++ [0x22])) ++ ([0x3A] ++ colonText indent)) ++ t') := by
            simp only [append_assoc]
        _ = _ := by rw [hlead']; simp
    rwa [hwhole] at hall

theorem serialized_dictionary {members : List (List UInt8 × Json)} (hkeys : (members.map Prod.fst).Nodup)
    (hstrings : ∀ m ∈ members, NodeString m.1) (h : ∀ m ∈ members, Serialized env indent n m.2) :
    Serialized env indent (n + 1) (.dictionary members) := by
  intro depth frames hdepth
  obtain ⟨t, hopen, hemits⟩ := emits_members hkeys hstrings h hdepth le_rfl
  rw [take_length] at hopen
  have hws : Ws (if heldAny ⟨.dictionary members, members.length, depth⟩ then indentText indent depth else []) := by
    split
    · exact ws_indentText indent depth
    · exact Ws.nil
  refine ⟨_, hopen.close hws, hemits.trans ?_⟩
  apply emits_close ⟨.dictionary members, members.length, depth⟩ (show depth < cjsonMaxSerializeDepth by omega)
  intro sb
  simp [serializeStep, serializeNext]

theorem serialized_tree (h : Tree n v) (hlibc : ∀ d, HoldsDouble d v → LibcReadsBack env d) : Serialized env indent n v := by
  induction h with
  | null => exact serialized_scalar nofun nofun .null fun sb => wrote_sbAppend sb _
  | @bool n b =>
    cases b with
    | true => exact serialized_scalar nofun nofun .true fun sb => wrote_sbAppend sb _
    | false => exact serialized_scalar nofun nofun .false fun sb => wrote_sbAppend sb _
  | integer => exact serialized_scalar nofun nofun (.number (numberText_lltoa _ _)) fun sb => wrote_sbAppend sb _
  | float hfinite =>
    exact serialized_scalar nofun nofun (.number (numberText_formatDouble hfinite (hlibc _ .float))) fun sb => wrote_sbAppend sb _
  | string hs =>
    exact serialized_scalar nofun nofun (.string (stringText_jsonBytes hs.1 hs.2)) fun sb => wrote_sbAppendJsonStr sb hs.2
  | list _ ih => exact serialized_list fun e he => ih e he fun d hd => hlibc d (.list he hd)
  | dictionary hkeys hstrings _ ih =>
    exact serialized_dictionary hkeys hstrings fun m hm => ih m hm fun d hd => hlibc d (.dictionary hm hd)

theorem serializeWith_jsonText {s : List UInt8} (h : Tree cjsonMaxSerializeDepth v) (hlibc : ∀ d, HoldsDouble d v → LibcReadsBack env d)
    (hs : serializeWith env (some v) indent = some s) : ValueText env.strtod cjsonMaxSerializeDepth s v := by
  have htree : Serialized env indent cjsonMaxSerializeDepth v := serialized_tree h hlibc
  obtain ⟨t, htext, hemits⟩ := htree 0 [] (Nat.zero_add _).le
  obtain ⟨sb', hwrote, hreach, hoom⟩ := hemits (sbInit env)
  cases hsb : sb'.oom with
  | true =>
    have hfail : (serializeNode env (sbInit env) (some v) indent 0).oom = true := hoom hsb
    simp [serializeWith, hfail] at hs
  | false =>
    have hrun : serializeNode env (sbInit env) (some v) indent 0 = sb' := by
      rw [serializeNode, (hreach hsb).run]
      exact Machine.run_halt rfl
    have hbytes : sb'.bytes = t := (hwrote.1 hsb).2
    simp only [serializeWith, hrun, hsb, Bool.false_eq_true, ↓reduceIte, hbytes, Option.some.injEq] at hs
    rwa [← hs]

theorem serializeWith_isSome (h : Tree cjsonMaxSerializeDepth v) (hlibc : ∀ d, HoldsDouble d v → LibcReadsBack env d)
    (hroom : ∀ i n, env.room i n = true) : (serializeWith env (some v) indent).isSome := by
  have htree : Serialized env indent cjsonMaxSerializeDepth v := serialized_tree h hlibc
  obtain ⟨t, htext, hemits⟩ := htree 0 [] (Nat.zero_add _).le
  obtain ⟨sb', hwrote, hreach, -⟩ := hemits (sbInit env)
  have hok : sb'.oom = false := hwrote.2 hroom (by simp [sbInit, hroom])
  have hrun : (serializeMachine env indent).run (.value (some v) 0 [] (sbInit env)) = sb' := by
    rw [(hreach hok).run]
    exact Machine.run_halt rfl
  simp [serializeWith, serializeNode, hrun, hok]

end Ccollections.Cjson
