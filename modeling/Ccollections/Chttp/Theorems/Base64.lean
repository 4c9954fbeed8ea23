import Ccollections.Chttp.Lemmas.Base64

/-!
# Base64 is a bijection onto the canonical texts
-/

namespace Ccollections.Chttp
open Chttpclient (chttpBase64Encode)

/-- The encoder and the decoder undo each other, within their allocations, and two pairs of a user name and a password
do not share credentials. -/
theorem base64_bijective_on_canonical :
    (∀ b : List UInt8, b.length ≤ encodeMax → ∃ s : CString, s.bytes.length = (b.length + 2) / 3 * 4 ∧
      chttpBase64EncodeMp true (.bytes b) = .ok ⟨⟨s.bytes.length + 1, s.bytes ++ [0]⟩, s.bytes.length⟩ ∧
      chttpBase64DecodeMp true (some s) = .ok ⟨⟨b.length + 1, b ++ [0]⟩, b.length⟩) ∧
    (∀ memory (s : CString) r, chttpBase64DecodeMp memory (some s) = .ok r →
      ∃ b : List UInt8, r = ⟨⟨b.length + 1, b ++ [0]⟩, b.length⟩ ∧ s.bytes.length = (b.length + 2) / 3 * 4 ∧
        (b.length ≤ encodeMax →
          chttpBase64EncodeMp true (.bytes b) = .ok ⟨⟨s.bytes.length + 1, s.bytes ++ [0]⟩, s.bytes.length⟩)) ∧
    (∀ s : CString, (∃ r, chttpBase64DecodeMp true (some s) = .ok r) ↔ Canonical s.bytes) ∧
    (∀ memory data, chttpBase64EncodeMp memory data ≠ .error .outOfBounds) ∧
    (∀ memory s, chttpBase64DecodeMp memory s ≠ .error .outOfBounds) ∧
    (∀ mp u p, chttpBasicAuthMp mp u p ≠ .error .outOfBounds) ∧
    (∀ mp u p o, chttpBasicAuthMp mp u p = .ok o → o.written.length = o.size) ∧
    ∀ mp mp' (u u' p p' : CString) o o', chttpBasicAuthMp mp (some u) (some p) = .ok o →
      chttpBasicAuthMp mp' (some u') (some p') = .ok o' → (u, p) ≠ (u', p') → o.written ≠ o'.written := by
  refine ⟨?_, ?_, ?_, ?_, ?_, ?_, ?_, ?_⟩
  · intro b hb
    have hlen := length_encode b
    have hfits : (chttpBase64Encode b).length < sizeMax := by
      rw [encodeMax_eq] at hb
      rw [sizeMax_eq]
      omega
    refine ⟨⟨chttpBase64Encode b, encode_ne_nul b, hfits⟩, hlen, encode_bytes hb, ?_⟩
    rcases decode_cases true ⟨chttpBase64Encode b, encode_ne_nul b, hfits⟩ with ⟨b', -, htext, hok⟩ | ⟨hno, -⟩
    · rw [hok, ← encode_injective htext]
      rfl
    · exact absurd rfl (hno rfl b)
  · intro memory s r hr
    rcases decode_cases memory s with ⟨b, -, htext, hok⟩ | ⟨-, hnull⟩
    · rw [hok] at hr
      refine ⟨b, (Except.ok.inj hr).symm, by rw [htext, length_encode], fun hb => ?_⟩
      rw [htext]
      exact encode_bytes hb
    · rw [hnull] at hr
      cases hr
  · intro s
    rw [canonical_iff]
    rcases decode_cases true s with ⟨b, -, htext, hok⟩ | ⟨hno, hnull⟩
    · exact ⟨fun _ => ⟨b, htext⟩, fun _ => ⟨_, hok⟩⟩
    · constructor
      · rintro ⟨r, hr⟩
        rw [hnull] at hr
        cases hr
      · rintro ⟨b, htext⟩
        exact absurd htext (hno rfl b)
  · intro memory data h
    rcases encode_cases memory data with hnull | ⟨-, -, hok⟩
    · rw [hnull] at h
      cases h
    · rw [hok] at h
      cases h
  · intro memory s h
    cases s with
    | none => cases h
    | some s =>
      rcases decode_cases memory s with ⟨b, -, -, hok⟩ | ⟨-, hnull⟩
      · rw [hok] at h
        cases h
      · rw [hnull] at h
        cases h
  · intro mp u p h
    match u, p with
    | some u, some p =>
      rcases basicAuth_cases mp u p with hnull | ⟨-, hok⟩
      · rw [hnull] at h
        cases h
      · rw [hok] at h
        cases h
    | none, _ | some _, none => cases h
  · intro mp u p o h
    match u, p with
    | some u, some p =>
      rcases basicAuth_cases mp u p with hnull | ⟨-, hok⟩
      · rw [hnull] at h
        cases h
      · rw [hok] at h
        rw [← Except.ok.inj h, credentials, List.length_append, List.length_append]
        rfl
    | none, _ | some _, none => cases h
  · intro mp mp' u u' p p' o o' h h' hne heq
    have hcred : ∀ {mp u p o}, chttpBasicAuthMp mp (some u) (some p) = .ok o → o = credentials u p ∧ 0x3A ∉ u.bytes := by
      intro mp u p o h
      rcases basicAuth_cases mp u p with hnull | ⟨hauth, hok⟩
      · rw [hnull] at h
        cases h
      · rw [hok] at h
        refine ⟨(Except.ok.inj h).symm, fun hmem => ?_⟩
        simp [Chttpclient.chttpBasicAuth, hmem] at hauth
    obtain ⟨rfl, hu⟩ := hcred h
    obtain ⟨rfl, hu'⟩ := hcred h'
    obtain ⟨rfl, rfl⟩ := credentials_injective hu hu' heq
    exact hne rfl

/-- An input one byte longer than the encoder takes. Its text and the NUL after it still fit a `size_t`. -/
theorem encode_refuses_text_that_fits :
    let b : List UInt8 := List.replicate (encodeMax + 1) 0
    (b.length + 2) / 3 * 4 + 1 ≤ sizeMax ∧ ¬∃ r, chttpBase64EncodeMp true (.bytes b) = .ok r := by
  intro b
  have hlen : b.length = encodeMax + 1 := List.length_replicate
  refine ⟨by rw [hlen, encodeMax_eq, sizeMax_eq]; decide, ?_⟩
  rintro ⟨r, hr⟩
  rcases encode_cases true (.bytes b) with hnull | ⟨-, hmax, -⟩
  · rw [hnull] at hr
    cases hr
  · exact absurd hmax (by rw [Data.content, hlen]; exact Nat.not_succ_le_self _)

end Ccollections.Chttp
