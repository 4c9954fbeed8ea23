import Ccollections.Chttpclient.Lemmas.Url

/-!
# The fields of a request
-/

namespace Ccollections.Chttpclient
open Chttp1 List

variable {req : Request} {url : ChttpUrl} {auth : Option (List UInt8)} {fields : List Field}

/-! ## Names -/

theorem nameIs_congr {a b : List UInt8} (h : asciiCaseEq a b = true) (literal : String) : nameIs a literal = nameIs b literal := by
  have hab := asciiCaseEq_iff.mp h
  simp only [nameIs, asciiCaseEq, hab]

theorem leftOff_congr {method : Method} {drops : RedirectDrops} {a b : List UInt8} (h : asciiCaseEq a b = true) :
    leftOff method drops a = leftOff method drops b := by
  simp only [leftOff, isBodyHeader, isRedirectCredentialHeader, nameIs_congr h]

/-! ## The fields of the caller -/

variable {method : Method} {bodyLen : Nat} {drops : RedirectDrops}

def fieldIsValid (f : Field) : Bool := f.1 ≠ [] && headerValueIsValid f.2 && f.1.all chttp1IsTchar

theorem callerFields_cons {seen : List (List UInt8)} {f : Field} {headers out : List Field}
    (h : callerFields method bodyLen drops seen (f :: headers) = .ok out) :
    fieldIsValid f = true ∧
    ((leftOff method drops f.1 = true ∨ seen.any (asciiCaseEq · f.1) = true) ∧ callerFields method bodyLen drops seen headers = .ok out ∨
    leftOff method drops f.1 = false ∧ seen.any (asciiCaseEq · f.1) = false ∧
      (method.bodyCarrying = true → nameIs f.1 "content-length" = true → contentLengthMatches f.2 bodyLen = true) ∧
      ∃ rest, callerFields method bodyLen drops (f.1 :: seen) headers = .ok rest ∧ out = f :: rest) := by
  obtain ⟨name, val⟩ := f
  simp only [callerFields] at h
  split at h
  · cases h
  · rename_i hvalid
    refine ⟨by simpa [fieldIsValid, and_assoc] using hvalid, ?_⟩
    split at h
    · rename_i hbody
      exact .inl ⟨.inl (by simp [leftOff, hbody]), h⟩
    · rename_i hbody
      split at h
      · rename_i hcred
        exact .inl ⟨.inl (by simp [leftOff, hcred]), h⟩
      · rename_i hcred
        split at h
        · rename_i hhost
          exact .inl ⟨.inl (by simp [leftOff, hhost]), h⟩
        · rename_i hhost
          split at h
          · rename_i hseen
            exact .inl ⟨.inr hseen, h⟩
          · rename_i hseen
            split at h
            · cases h
            · rename_i hlength
              obtain ⟨rest, hrest, hout⟩ := except_map_ok h
              refine .inr ⟨?_, by simpa using hseen, fun hcarry hname => ?_, rest, hrest, hout.symm⟩
              · simp only [leftOff, Bool.or_eq_false_iff]
                exact ⟨⟨by simpa using hbody, by simpa using hcred⟩, by simpa using hhost⟩
              · simpa [hcarry, hname] using hlength

/-- The fields that are written are those of the map whose name is not left off, one for each name: the newest. -/
structure CallerFields (method : Method) (bodyLen : Nat) (drops : RedirectDrops) (seen : List (List UInt8)) (headers out : List Field) :
    Prop where
  valid : ∀ f ∈ headers, fieldIsValid f = true
  sublist : out.Sublist headers
  kept : ∀ f ∈ out, leftOff method drops f.1 = false
  unseen : ∀ f ∈ out, seen.any (asciiCaseEq · f.1) = false
  distinct : out.Pairwise fun f g => asciiCaseEq f.1 g.1 = false
  newest : ∀ f ∈ out, headers.find? (fun g => asciiCaseEq g.1 f.1) = some f
  complete : ∀ f ∈ headers, leftOff method drops f.1 = false → seen.any (asciiCaseEq · f.1) = false →
    ∃ g ∈ out, asciiCaseEq g.1 f.1 = true
  length : ∀ f ∈ out, method.bodyCarrying = true → nameIs f.1 "content-length" = true → contentLengthMatches f.2 bodyLen = true

theorem asciiCaseEq_comm (a b : List UInt8) : asciiCaseEq a b = asciiCaseEq b a := by
  simp only [asciiCaseEq, eq_comm]

theorem callerFields_spec {seen : List (List UInt8)} {headers out : List Field}
    (h : callerFields method bodyLen drops seen headers = .ok out) : CallerFields method bodyLen drops seen headers out := by
  induction headers generalizing seen out with
  | nil =>
    cases h
    exact ⟨by simp, .refl _, by simp, by simp, .nil, by simp, by simp, by simp⟩
  | cons f headers ih =>
    obtain ⟨hvalid, ⟨hoff, h⟩ | ⟨hkept, hseen, hlength, rest, hrest, rfl⟩⟩ := callerFields_cons h
    · have hrest := ih h
      have hother : ∀ g ∈ out, asciiCaseEq f.1 g.1 = false := by
        intro g hg
        by_contra hsame
        have hsame : asciiCaseEq f.1 g.1 = true := by simpa using hsame
        rcases hoff with hoff | hoff
        · rw [leftOff_congr hsame, hrest.kept g hg] at hoff
          cases hoff
        · obtain ⟨n, hn, hnf⟩ := any_eq_true.mp hoff
          have hng : seen.any (asciiCaseEq · g.1) = true := any_eq_true.mpr ⟨n, hn, asciiCaseEq_trans hnf hsame⟩
          rw [hrest.unseen g hg] at hng
          cases hng
      refine ⟨forall_mem_cons.mpr ⟨hvalid, hrest.valid⟩, hrest.sublist.cons _, hrest.kept, hrest.unseen, hrest.distinct, ?_, ?_,
        hrest.length⟩
      · intro g hg
        rw [List.find?_cons_of_neg (by simp [hother g hg])]
        exact hrest.newest g hg
      · intro g hg hgkept hgseen
        rcases mem_cons.mp hg with rfl | hg
        · rcases hoff with hoff | hoff
          · rw [hgkept] at hoff
            cases hoff
          · rw [hgseen] at hoff
            cases hoff
        · exact hrest.complete g hg hgkept hgseen
    · have hrest := ih hrest
      have hunseen : ∀ g ∈ rest, asciiCaseEq f.1 g.1 = false ∧ seen.any (asciiCaseEq · g.1) = false := by
        intro g hg
        simpa using hrest.unseen g hg
      refine ⟨forall_mem_cons.mpr ⟨hvalid, hrest.valid⟩, hrest.sublist.cons_cons _, ?_, ?_, ?_, ?_, ?_, ?_⟩
      · exact forall_mem_cons.mpr ⟨hkept, hrest.kept⟩
      · exact forall_mem_cons.mpr ⟨hseen, fun g hg => (hunseen g hg).2⟩
      · exact pairwise_cons.mpr ⟨fun g hg => (hunseen g hg).1, hrest.distinct⟩
      · intro g hg
        rcases mem_cons.mp hg with rfl | hg
        · exact List.find?_cons_of_pos (asciiCaseEq_refl _)
        · rw [List.find?_cons_of_neg (by simp [(hunseen g hg).1])]
          exact hrest.newest g hg
      · intro g hg hgkept hgseen
        by_cases hsame : asciiCaseEq f.1 g.1 = true
        · exact ⟨f, mem_cons_self, hsame⟩
        · rcases mem_cons.mp hg with rfl | hg
          · exact absurd (asciiCaseEq_refl _) hsame
          · obtain ⟨g', hg', hname⟩ := hrest.complete g hg hgkept (by simpa [hsame] using hgseen)
            exact ⟨g', mem_cons_of_mem _ hg', hname⟩
      · exact forall_mem_cons.mpr ⟨hlength, hrest.length⟩

/-! ## What a header map holds -/

theorem nameIs_false {name : List UInt8} {a b : String} (h : nameIs name a = true)
    (hne : (ascii a).map ccolAsciiTolower ≠ (ascii b).map ccolAsciiTolower) : nameIs name b = false := by
  by_contra hb
  have hb : nameIs name b = true := by simpa using hb
  exact hne ((asciiCaseEq_iff.mp h).symm.trans (asciiCaseEq_iff.mp hb))

theorem see_eq (p : HeaderPresence) (f : Field) : p.see f = {
    hasHost := p.hasHost || nameIs f.1 "host"
    hasAccept := p.hasAccept || nameIs f.1 "accept"
    hasUserAgent := p.hasUserAgent || nameIs f.1 "user-agent"
    hasContentLength := p.hasContentLength || nameIs f.1 "content-length"
    hasContentType := p.hasContentType || nameIs f.1 "content-type"
    hasAuthorization := p.hasAuthorization || nameIs f.1 "authorization"
    hasExpect := p.hasExpect || nameIs f.1 "expect"
    hasTransferEncoding := p.hasTransferEncoding || nameIs f.1 "transfer-encoding"
    hasIdempotencyKey := p.hasIdempotencyKey || (nameIs f.1 "idempotency-key" || nameIs f.1 "x-idempotency-key")
    requestClose := p.requestClose || (nameIs f.1 "connection" && connectionValueHasClose f.2) } := by
  rw [HeaderPresence.see]
  split
  · rename_i h
    simp (disch := decide) [h, nameIs_false h]
  · split
    · rename_i h
      simp (disch := decide) [h, nameIs_false h]
    · split
      · rename_i h
        simp (disch := decide) [h, nameIs_false h]
      · split
        · rename_i h
          simp (disch := decide) [h, nameIs_false h]
        · split
          · rename_i h
            simp (disch := decide) [h, nameIs_false h]
          · split
            · rename_i h
              simp (disch := decide) [h, nameIs_false h]
            · split
              · rename_i h
                simp (disch := decide) [h, nameIs_false h]
              · split
                · rename_i h
                  simp (disch := decide) [h, nameIs_false h]
                · split
                  · rename_i h
                    rcases Bool.or_eq_true_iff.mp h with h | h
                    · simp (disch := decide) [h, nameIs_false h]
                    · simp (disch := decide) [h, nameIs_false h]
                  · split
                    · rename_i h
                      obtain ⟨h, hclose⟩ := Bool.and_eq_true_iff.mp h
                      simp (disch := decide) [h, hclose, nameIs_false h]
                    · rename_i h
                      have hclose : (nameIs f.1 "connection" && connectionValueHasClose f.2) = false := by simpa using h
                      rw [hclose]
                      simp_all

theorem scan_flag (flag : HeaderPresence → Bool) (literal : String) (hnone : flag .none = false)
    (hsee : ∀ p f, flag (p.see f) = (flag p || nameIs f.1 literal)) (headers : List Field) :
    flag (scanHeaderPresence headers) = headers.any (nameIs ·.1 literal) := by
  have hfold : ∀ p, flag (headers.foldl HeaderPresence.see p) = (flag p || headers.any (nameIs ·.1 literal)) := by
    induction headers with
    | nil => simp
    | cons f headers ih =>
      intro p
      rw [foldl_cons, ih, hsee, any_cons, Bool.or_assoc]
  rw [scanHeaderPresence, hfold, hnone, Bool.false_or]

theorem scan_hasHost (headers : List Field) : (scanHeaderPresence headers).hasHost = headers.any (nameIs ·.1 "host") :=
  scan_flag (·.hasHost) _ rfl (fun p f => by rw [see_eq]) headers

theorem scan_hasAccept (headers : List Field) : (scanHeaderPresence headers).hasAccept = headers.any (nameIs ·.1 "accept") :=
  scan_flag (·.hasAccept) _ rfl (fun p f => by rw [see_eq]) headers

theorem scan_hasUserAgent (headers : List Field) :
    (scanHeaderPresence headers).hasUserAgent = headers.any (nameIs ·.1 "user-agent") :=
  scan_flag (·.hasUserAgent) _ rfl (fun p f => by rw [see_eq]) headers

theorem scan_hasContentLength (headers : List Field) :
    (scanHeaderPresence headers).hasContentLength = headers.any (nameIs ·.1 "content-length") :=
  scan_flag (·.hasContentLength) _ rfl (fun p f => by rw [see_eq]) headers

theorem scan_hasContentType (headers : List Field) :
    (scanHeaderPresence headers).hasContentType = headers.any (nameIs ·.1 "content-type") :=
  scan_flag (·.hasContentType) _ rfl (fun p f => by rw [see_eq]) headers

theorem scan_hasAuthorization (headers : List Field) :
    (scanHeaderPresence headers).hasAuthorization = headers.any (nameIs ·.1 "authorization") :=
  scan_flag (·.hasAuthorization) _ rfl (fun p f => by rw [see_eq]) headers

theorem scan_hasExpect (headers : List Field) : (scanHeaderPresence headers).hasExpect = headers.any (nameIs ·.1 "expect") :=
  scan_flag (·.hasExpect) _ rfl (fun p f => by rw [see_eq]) headers

theorem scan_hasTransferEncoding (headers : List Field) :
    (scanHeaderPresence headers).hasTransferEncoding = headers.any (nameIs ·.1 "transfer-encoding") :=
  scan_flag (·.hasTransferEncoding) _ rfl (fun p f => by rw [see_eq]) headers

/-! ## All fields -/

def ownNames : List String := ["host", "accept", "user-agent", "authorization", "content-type", "content-length", "expect"]

structure OwnField (headers : List Field) (method : Method) (drops : RedirectDrops) (f : Field) (literal : String) : Prop where
  name : f.1 = ascii literal
  absent : headers.any (nameIs ·.1 literal) = false ∨ leftOff method drops (ascii literal) = true

theorem OwnField.not_caller {headers out : List Field} {seen : List (List UInt8)} {f g : Field} {literal : String}
    (h : OwnField headers method drops f literal) (hout : CallerFields method bodyLen drops seen headers out) (hg : g ∈ out) :
    asciiCaseEq f.1 g.1 = false := by
  rw [h.name]
  by_contra hsame
  have hsame : asciiCaseEq g.1 (ascii literal) = true := asciiCaseEq_symm (by simpa using hsame)
  rcases h.absent with habsent | habsent
  · have hany : headers.any (nameIs ·.1 literal) = true := any_eq_true.mpr ⟨g, hout.sublist.subset hg, hsame⟩
    rw [habsent] at hany
    cases hany
  · rw [← leftOff_congr hsame, hout.kept g hg] at habsent
    cases habsent

theorem leftOff_host (hdrop : drops.host = true) : leftOff method drops (ascii "host") = true := by
  have hname : nameIs (ascii "host") "host" = true := by decide
  simp [leftOff, hdrop, hname]

theorem leftOff_authorization (hdrop : drops.credentials = true) : leftOff method drops (ascii "authorization") = true := by
  have hname : isRedirectCredentialHeader (ascii "authorization") = true := by decide
  simp [leftOff, hdrop, hname]

theorem leadingFields_own {headers : List Field} {f : Field}
    (hf : f ∈ leadingFields (scanHeaderPresence headers) url auth drops) :
    ∃ literal ∈ ["host", "accept", "user-agent", "authorization"], OwnField headers method drops f literal := by
  simp only [leadingFields, scan_hasHost, scan_hasAccept, scan_hasUserAgent, scan_hasAuthorization, mem_append] at hf
  rcases hf with ((hf | hf) | hf) | hf
  · split at hf
    · cases hf
    · rename_i habsent
      cases mem_singleton.mp hf
      refine ⟨"host", by simp, rfl, ?_⟩
      cases hdrop : drops.host with
      | true => exact .inr (leftOff_host hdrop)
      | false => exact .inl (by simpa [hdrop] using habsent)
  · split at hf
    · cases hf
    · rename_i habsent
      cases mem_singleton.mp hf
      exact ⟨"accept", by simp, rfl, .inl (by simpa using habsent)⟩
  · split at hf
    · cases hf
    · rename_i habsent
      cases mem_singleton.mp hf
      exact ⟨"user-agent", by simp, rfl, .inl (by simpa using habsent)⟩
  · split at hf
    · split at hf
      · cases hf
      · rename_i habsent
        cases mem_singleton.mp hf
        refine ⟨"authorization", by simp, rfl, ?_⟩
        cases hdrop : drops.credentials with
        | true => exact .inr (leftOff_authorization hdrop)
        | false => exact .inl (by simpa [hdrop] using habsent)
    · cases hf

theorem contentTypeField_own {contentType : List Field} {f : Field}
    (h : contentTypeField req (scanHeaderPresence req.headers) = .ok contentType) (hf : f ∈ contentType) :
    OwnField req.headers req.method drops f "content-type" := by
  simp only [contentTypeField, scan_hasContentType] at h
  split at h
  · split at h
    · cases h
      cases hf
    · rename_i habsent
      split at h
      · cases h
        cases mem_singleton.mp hf
        refine ⟨rfl, .inl ?_⟩
        simp only [Bool.or_eq_true, not_or] at habsent
        simpa using habsent.1
      · cases h
  · cases h
    cases hf

theorem trailingFields_own {f : Field} (hf : f ∈ trailingFields req (scanHeaderPresence req.headers)) :
    ∃ literal ∈ ["content-length", "expect"], OwnField req.headers req.method drops f literal := by
  simp only [trailingFields, scan_hasContentLength, scan_hasExpect, mem_append] at hf
  rcases hf with hf | hf
  · split at hf
    · rename_i habsent
      cases mem_singleton.mp hf
      simp only [Bool.and_eq_true] at habsent
      exact ⟨"content-length", by simp, rfl, .inl (by simpa using habsent.2)⟩
    · cases hf
  · split at hf
    · rename_i habsent
      cases mem_singleton.mp hf
      simp only [Bool.and_eq_true] at habsent
      exact ⟨"expect", by simp, rfl, .inl (by simpa using habsent.1.1.1)⟩
    · cases hf

theorem own_sublist {contentType : List Field}
    (h : contentTypeField req (scanHeaderPresence req.headers) = .ok contentType) :
    ((leadingFields (scanHeaderPresence req.headers) url auth drops ++ contentType ++
      trailingFields req (scanHeaderPresence req.headers)).map Prod.fst).Sublist (ownNames.map ascii) := by
  have hct : (contentType.map Prod.fst).Sublist [ascii "content-type"] := by
    simp only [contentTypeField] at h
    split at h
    · split at h
      · cases h
        exact nil_sublist _
      · split at h
        · cases h
          exact .refl _
        · cases h
    · cases h
      exact nil_sublist _
  simp only [leadingFields, trailingFields, map_append]
  change List.Sublist _ (([ascii "host"] ++ [ascii "accept"] ++ [ascii "user-agent"] ++ [ascii "authorization"]) ++
    [ascii "content-type"] ++ ([ascii "content-length"] ++ [ascii "expect"]))
  refine ((((List.Sublist.append ?_ ?_).append ?_).append ?_).append hct).append (List.Sublist.append ?_ ?_)
  · split <;> simp
  · split <;> simp
  · split <;> simp
  · split
    · split <;> simp
    · simp
  · split <;> simp
  · split <;> simp

theorem requestFields_parts
    (h : requestFields req url auth drops = .ok fields) :
    ∃ caller contentType, req.method ≠ .any ∧ req.headers.any (nameIs ·.1 "transfer-encoding") = false ∧
      callerFields req.method req.body.bytes.length drops [] req.headers = .ok caller ∧
      contentTypeField req (scanHeaderPresence req.headers) = .ok contentType ∧
      fields = leadingFields (scanHeaderPresence req.headers) url auth drops ++ caller ++ contentType ++
        trailingFields req (scanHeaderPresence req.headers) := by
  simp only [requestFields] at h
  split at h
  · cases h
  · rename_i hrefused
    obtain ⟨caller, hcaller, h⟩ := except_bind_ok h
    obtain ⟨contentType, hct, h⟩ := except_bind_ok h
    cases h
    simp only [Bool.or_eq_true, not_or, decide_eq_true_eq] at hrefused
    refine ⟨caller, contentType, hrefused.1, ?_, hcaller, hct, rfl⟩
    rw [← scan_hasTransferEncoding]
    simpa using hrefused.2

theorem ownNames_distinct : (ownNames.map ascii).Pairwise fun a b => asciiCaseEq a b = false := by
  decide

theorem requestFields_distinct
    (h : requestFields req url auth drops = .ok fields) : fields.Pairwise fun f g => asciiCaseEq f.1 g.1 = false := by
  obtain ⟨caller, contentType, -, -, hcaller, hct, rfl⟩ := requestFields_parts h
  have hspec := callerFields_spec hcaller
  have hsub : ((leadingFields (scanHeaderPresence req.headers) url auth drops ++ contentType ++
      trailingFields req (scanHeaderPresence req.headers)).map Prod.fst).Sublist (ownNames.map ascii) := own_sublist hct
  have hown := ownNames_distinct.sublist hsub
  have hleading : ∀ f ∈ leadingFields (scanHeaderPresence req.headers) url auth drops, ∀ g ∈ caller, asciiCaseEq f.1 g.1 = false := by
    intro f hf g hg
    obtain ⟨literal, -, hown⟩ := leadingFields_own hf
    exact hown.not_caller hspec hg
  have hafter : ∀ f ∈ caller, ∀ g ∈ contentType ++ trailingFields req (scanHeaderPresence req.headers), asciiCaseEq f.1 g.1 = false := by
    intro f hf g hg
    rw [asciiCaseEq_comm]
    rcases mem_append.mp hg with hg | hg
    · exact (contentTypeField_own hct hg).not_caller hspec hf
    · obtain ⟨literal, -, hown⟩ := trailingFields_own hg
      exact hown.not_caller hspec hf
  rw [pairwise_map] at hown
  rw [append_assoc] at hown ⊢
  obtain ⟨hlead, hrest, hcross⟩ := pairwise_append.mp hown
  refine pairwise_append.mpr ⟨pairwise_append.mpr ⟨hlead, hspec.distinct, hleading⟩, hrest, fun f hf g hg => ?_⟩
  rcases mem_append.mp hf with hf | hf
  · exact hcross f hf g hg
  · exact hafter f hf g hg

theorem requestFields_host
    (h : requestFields req url auth drops = .ok fields) : ∃ f ∈ fields, nameIs f.1 "host" = true := by
  obtain ⟨caller, contentType, -, -, hcaller, hct, rfl⟩ := requestFields_parts h
  have hspec := callerFields_spec hcaller
  by_cases hhost : (scanHeaderPresence req.headers).hasHost = true ∧ drops.host = false
  · obtain ⟨hhas, hdrop⟩ := hhost
    rw [scan_hasHost] at hhas
    obtain ⟨f, hf, hname⟩ := any_eq_true.mp hhas
    have hkept : leftOff req.method drops f.1 = false := by
      have hbody : isBodyHeader f.1 = false := by
        simp (disch := decide) [isBodyHeader, nameIs_false hname]
      have hcred : isRedirectCredentialHeader f.1 = false := by
        simp (disch := decide) [isRedirectCredentialHeader, nameIs_false hname]
      simp [leftOff, hbody, hcred, hdrop]
    obtain ⟨g, hg, hsame⟩ := hspec.complete f hf hkept rfl
    refine ⟨g, by simp [hg], ?_⟩
    rw [nameIs_congr hsame]
    exact hname
  · refine ⟨(ascii "host", hostValue url), ?_, asciiCaseEq_refl _⟩
    have hown : ((scanHeaderPresence req.headers).hasHost && !drops.host) = false := by
      simpa using hhost
    simp [leadingFields, hown]

theorem countP_nameIs {literal : String} (hdistinct : fields.Pairwise fun f g => asciiCaseEq f.1 g.1 = false)
    (hmem : ∃ f ∈ fields, nameIs f.1 literal = true) : fields.countP (nameIs ·.1 literal) = 1 := by
  induction hdistinct with
  | nil => simp at hmem
  | cons hhead htail ih =>
    rename_i f fields
    by_cases hf : nameIs f.1 literal = true
    · have hzero : fields.countP (nameIs ·.1 literal) = 0 := by
        refine countP_eq_zero.mpr fun g hg hname => ?_
        have hsame := asciiCaseEq_trans hf (asciiCaseEq_symm hname)
        rw [hhead g hg] at hsame
        cases hsame
      rw [countP_cons, hzero, if_pos hf]
    · rw [countP_cons, if_neg hf]
      obtain ⟨g, hg, hname⟩ := hmem
      rcases mem_cons.mp hg with rfl | hg
      · exact absurd hname hf
      · exact ih ⟨g, hg, hname⟩

end Ccollections.Chttpclient
