/-
The decoder accepts exactly the documents of its grammar, and reads each as the value it denotes: what is read of a text
stands for what is returned, and what stands for a value is read, whatever follows it.
-/
import Wnc.Core.JsonGrammar

namespace Wnc

open Lib

namespace Parser

open Grammar

/-! ### White space -/

theorem isWs_iff {c : UInt8} : isWs c = true ↔ c = 32 ∨ c = 9 ∨ c = 10 ∨ c = 13 := by
  simp [isWs, or_assoc]

theorem skipWs_blank {blank : Bytes} (h : Blank blank) (rest : Bytes) : skipWs (blank ++ rest) = skipWs rest :=
  List.dropWhile_append_of_pos fun c hc => isWs_iff.2 (h c hc)

/-- White space is what is skipped. -/
theorem skipWs_split (input : Bytes) : ∃ blank, input = blank ++ skipWs input ∧ Blank blank :=
  ⟨input.takeWhile isWs, List.takeWhile_append_dropWhile.symm, fun _ hc => isWs_iff.1 (List.mem_takeWhile_imp hc)⟩

theorem skipWs_idem (input : Bytes) : skipWs (skipWs input) = skipWs input := by
  obtain ⟨blank, hinput, hblank⟩ := skipWs_split input
  conv_rhs => rw [hinput, skipWs_blank hblank]

theorem skipWs_cons {c : UInt8} (h : isWs c = false) (rest : Bytes) : skipWs (c :: rest) = c :: rest :=
  Json.skipWs_of_head fun b hb => by cases hb; exact h

theorem blank_append {a b : Bytes} (ha : Blank a) (hb : Blank b) : Blank (a ++ b) := fun c hc =>
  (List.mem_append.1 hc).elim (ha c) (hb c)

/-- Behind white space a number does not go on. -/
theorem follows_blank {blank rest : Bytes} (h : Blank blank) (hrest : Follows rest) : Follows (blank ++ rest) := by
  cases blank with
  | nil => exact hrest
  | cons b blank =>
    intro c hc
    cases hc
    rcases h b List.mem_cons_self with rfl | rfl | rfl | rfl <;> decide

theorem follows_nil : Follows [] := fun _ hc => nomatch hc

theorem follows_cons {c : UInt8} (h : c = 44 ∨ c = 93 ∨ c = 125) (rest : Bytes) : Follows (c :: rest) := by
  intro b hb
  cases hb
  rcases h with rfl | rfl | rfl <;> decide

/-- More white space in front of what is between brackets. -/
theorem stands_blank {o : JsonDecodeOptions} {depth : Nat} {blank text : Bytes} (hblank : Blank blank) {phrase : Phrase}
    (h : Stands o depth phrase text) (hphrase : ∀ v, phrase ≠ .value v) : Stands o depth phrase (blank ++ text) := by
  cases h with
  | item hbefore h hafter =>
    rw [← List.append_assoc]
    exact .item (blank_append hblank hbefore) h hafter
  | items hbefore h hafter hs =>
    rw [← List.append_assoc]
    exact .items (blank_append hblank hbefore) h hafter hs
  | member hbefore hkey hbetween hbehind h hafter =>
    rw [← List.append_assoc]
    exact .member (blank_append hblank hbefore) hkey hbetween hbehind h hafter
  | members hbefore hkey hbetween hbehind h hafter hs =>
    rw [← List.append_assoc]
    exact .members (blank_append hblank hbefore) hkey hbetween hbehind h hafter hs
  | _ => exact absurd rfl (hphrase _)

/-! ### What is read stands for what is returned -/

theorem length_numeral {text : Bytes} {l : Literal} (h : Numeral text l) : l.length = text.length := by
  obtain ⟨hinteger, hfraction, hexponent⟩ := h
  rename_i negative integer fractionText exponentText fraction exponent
  unfold Literal.length
  cases hexponent with
  | none => cases hfraction <;> cases negative <;> simp <;> omega
  | some he hsign hdigits => cases hsign <;> cases hfraction <;> cases negative <;> simp <;> omega

theorem parseNumber_sound {input rest : Bytes} {v : Json} (h : parseNumber input = .ok (v, rest)) :
    ∃ text l, input = text ++ rest ∧ Numeral text l ∧ text.length ≤ 64 ∧ Denotes l v := by
  unfold parseNumber at h
  split at h
  · cases h
  · rename_i l rest' hscan
    split at h
    · cases h
    · rename_i value hvalue
      cases h
      obtain ⟨text, hinput, hnumeral⟩ := scanNumber_sound hscan
      have hdigits : ∀ c ∈ l.integer, isDigit c = true := by
        cases hnumeral with
        | mk hinteger => exact hinteger.digit
      obtain ⟨hlength, hdenotes⟩ := (numberValue_iff hdigits).1 hvalue
      exact ⟨text, l, hinput, hnumeral, length_numeral hnumeral ▸ hlength, hdenotes⟩

theorem literal_sound {token : String} {value v : Json} {input rest : Bytes} (h : literal token value input = .ok (v, rest)) :
    input = utf8 token ++ rest ∧ v = value := by
  unfold literal at h
  simp only at h
  split at h
  · cases h
  · split at h
    · cases h
    · rename_i htake
      cases h
      rw [ne_eq, not_not] at htake
      refine ⟨?_, rfl⟩
      conv_lhs => rw [← List.take_append_drop (utf8 token).length input, htake]

mutual

theorem parseValue_sound {o : JsonDecodeOptions} : ∀ {fuel depth : Nat} {input rest : Bytes} {v : Json},
    parseValue o fuel depth input = .ok (v, rest) → ∃ text, input = text ++ rest ∧ Stands o depth (.value v) text
  | 0, _, _, _, _, h => by cases h
  | fuel + 1, depth, input, rest, v, h => by
    by_cases hd : o.depthBound < depth
    · obtain ⟨e, he⟩ : ∃ e, parseValue o (fuel + 1) depth input = .error e := parseValue_refused hd
      rw [he] at h
      cases h
    · have hd' : depth ≤ o.depthBound := not_lt.1 hd
      unfold parseValue at h
      split at h
      · cases h
      · rename_i c behind
        obtain ⟨blank, hbehind, hblank⟩ := skipWs_split behind
        rw [if_neg (within hd')] at h
        split at h
        · rename_i hc
          subst hc
          split at h
          · rename_i heq
            cases h
            rw [heq] at hbehind
            exact ⟨123 :: (blank ++ [125]), by rw [hbehind]; simp, .emptyObject hd' hblank⟩
          · obtain ⟨members, text, htext, rfl, hmembers, hkeys, -⟩ := parseMembers_sound h
            rw [htext] at hbehind
            refine ⟨123 :: ((blank ++ text) ++ [125]), by rw [hbehind]; simp, .object hd' ?_ hkeys⟩
            exact stands_blank hblank hmembers fun _ hne => nomatch hne
        · split at h
          · rename_i hc
            subst hc
            split at h
            · rename_i heq
              cases h
              rw [heq] at hbehind
              exact ⟨91 :: (blank ++ [93]), by rw [hbehind]; simp, .emptyArray hd' hblank⟩
            · obtain ⟨items, text, htext, rfl, hitems⟩ := parseItems_sound h
              rw [htext] at hbehind
              refine ⟨91 :: ((blank ++ text) ++ [93]), by rw [hbehind]; simp, .array hd' ?_⟩
              exact stands_blank hblank hitems fun _ hne => nomatch hne
          · split at h
            · split at h
              · cases h
              · rename_i value rest' hstring
                cases h
                obtain ⟨text, hinput, hquoted⟩ := parseString_sound hstring
                exact ⟨text, hinput, .string hd' hquoted⟩
            · split at h
              · obtain ⟨hinput, rfl⟩ := literal_sound h
                exact ⟨_, hinput, .literal hd' (.head _)⟩
              · split at h
                · obtain ⟨hinput, rfl⟩ := literal_sound h
                  exact ⟨_, hinput, .literal hd' (.tail _ (.head _))⟩
                · split at h
                  · obtain ⟨hinput, rfl⟩ := literal_sound h
                    exact ⟨_, hinput, .literal hd' (.tail _ (.tail _ (.head _)))⟩
                  · split at h
                    · obtain ⟨text, l, hinput, hnumeral, hlength, hdenotes⟩ := parseNumber_sound h
                      exact ⟨text, hinput, .number hd' hnumeral hlength hdenotes⟩
                    · cases h

theorem parseMembers_sound {o : JsonDecodeOptions} : ∀ {fuel depth : Nat} {map : List (Bytes × Json)} {input rest : Bytes}
    {v : Json}, parseMembers o fuel depth map input = .ok (v, rest) →
      ∃ members text, input = text ++ 125 :: rest ∧ v = .object (memberMap map members) ∧
        Stands o (depth + 1) (.members members) text ∧ (members.map Prod.fst).Nodup ∧
        ∀ e ∈ members, Assoc.find e.1 map = none
  | 0, _, _, _, _, _, h => by cases h
  | fuel + 1, depth, map, input, rest, v, h => by
    obtain ⟨before, hbefore, hblank⟩ := skipWs_split input
    unfold parseMembers at h
    split at h
    · cases h
    · rename_i key rest₁ hkey
      obtain ⟨keyText, hkeyText, hquoted⟩ := parseString_sound hkey
      obtain ⟨between, hbetween, hblank₁⟩ := skipWs_split rest₁
      split at h
      · rename_i rest₂ hcolon
        obtain ⟨behind, hbehind, hblank₂⟩ := skipWs_split rest₂
        split at h
        · cases h
        · rename_i value rest₃ hvalue
          obtain ⟨text, htext, hstands⟩ := parseValue_sound hvalue
          obtain ⟨after, hafter, hblank₃⟩ := skipWs_split rest₃
          rw [hcolon] at hbetween
          rw [hbefore, hkeyText, hbetween, hbehind, htext]
          split at h
          · cases h
          · rename_i hnew
            rw [Option.not_isSome_iff_eq_none] at hnew
            split at h
            · cases h
            · rename_i rest₄ hcomma
              obtain ⟨members, texts, hinput, rfl, hmembers, hkeys, hnone⟩ := parseMembers_sound h
              rw [hafter, hcomma, hinput]
              have hne : ∀ e ∈ members, e.1 ≠ key := by
                rintro e he rfl
                have hfound := hnone e he
                rw [Assoc.find_set_self] at hfound
                cases hfound
              refine ⟨(key, value) :: members, _, ?_, rfl,
                .members hblank hquoted hblank₁ hblank₂ hstands hblank₃ hmembers, ?_, ?_⟩
              · simp
              · rw [List.map_cons, List.nodup_cons]
                refine ⟨fun hmem => ?_, hkeys⟩
                obtain ⟨e, he, hkey⟩ := List.mem_map.1 hmem
                exact hne e he hkey
              · refine List.forall_mem_cons.2 ⟨hnew, fun e he => ?_⟩
                rw [← hnone e he, Assoc.find_set_ne (hne e he).symm]
            · rename_i rest₄ hclose
              cases h
              rw [hafter, hclose]
              exact ⟨[(key, value)], _, by simp, rfl, .member hblank hquoted hblank₁ hblank₂ hstands hblank₃,
                List.nodup_singleton _, List.forall_mem_singleton.2 hnew⟩
            · cases h
      · cases h

theorem parseItems_sound {o : JsonDecodeOptions} : ∀ {fuel depth : Nat} {read : List Json} {input rest : Bytes} {v : Json},
    parseItems o fuel depth read input = .ok (v, rest) →
      ∃ items text, input = text ++ 93 :: rest ∧ v = .array (read ++ items) ∧ Stands o (depth + 1) (.items items) text
  | 0, _, _, _, _, _, h => by cases h
  | fuel + 1, depth, read, input, rest, v, h => by
    obtain ⟨before, hbefore, hblank⟩ := skipWs_split input
    unfold parseItems at h
    split at h
    · cases h
    · rename_i value rest₁ hvalue
      obtain ⟨text, htext, hstands⟩ := parseValue_sound hvalue
      obtain ⟨after, hafter, hblank₁⟩ := skipWs_split rest₁
      rw [hbefore, htext]
      split at h
      · cases h
      · rename_i rest₂ hcomma
        obtain ⟨items, texts, hinput, rfl, hitems⟩ := parseItems_sound h
        rw [hafter, hcomma, hinput]
        exact ⟨value :: items, _, by simp, by simp, .items hblank hstands hblank₁ hitems⟩
      · rename_i rest₂ hclose
        cases h
        rw [hafter, hclose]
        exact ⟨[value], _, by simp, rfl, .item hblank hstands hblank₁⟩
      · cases h

end

/-! ### What stands for a value is read -/

theorem head_numeral {text : Bytes} {l : Literal} (h : Numeral text l) :
    ∃ c more, text = c :: more ∧ (c = 45 ∨ isDigit c = true) := by
  obtain ⟨hinteger, -, -⟩ := h
  rename_i negative integer _ _ _ _
  cases negative with
  | true => exact ⟨45, _, rfl, .inl rfl⟩
  | false =>
    obtain ⟨d, more, rfl⟩ := List.exists_cons_of_ne_nil hinteger.nonempty
    exact ⟨d, _, rfl, .inr (hinteger.digit d List.mem_cons_self)⟩

theorem mem_literals {text : Bytes} {v : Json} (h : (text, v) ∈ literals) :
    text = utf8 "true" ∧ v = .bool true ∨ text = utf8 "false" ∧ v = .bool false ∨ text = utf8 "null" ∧ v = .null := by
  simpa only [literals, List.mem_cons, Prod.mk.injEq, List.not_mem_nil, or_false] using h

theorem head_value {o : JsonDecodeOptions} {depth : Nat} {text : Bytes} {v : Json} (h : Stands o depth (.value v) text) :
    ∃ c more, text = c :: more ∧ Json.Starts c := by
  cases h with
  | literal _ hmem =>
    rcases mem_literals hmem with ⟨rfl, -⟩ | ⟨rfl, -⟩ | ⟨rfl, -⟩
    · exact ⟨116, _, rfl, by decide⟩
    · exact ⟨102, _, rfl, by decide⟩
    · exact ⟨110, _, rfl, by decide⟩
  | string _ hquoted =>
    cases hquoted
    exact ⟨34, _, rfl, by decide⟩
  | number _ hnumeral =>
    obtain ⟨c, more, heq, hc⟩ := head_numeral hnumeral
    refine ⟨c, more, heq, ?_⟩
    rcases hc with rfl | hc
    · decide
    · exact Json.starts_of_isDigit hc
  | emptyArray => exact ⟨91, _, rfl, by decide⟩
  | array => exact ⟨91, _, rfl, by decide⟩
  | emptyObject => exact ⟨123, _, rfl, by decide⟩
  | object => exact ⟨123, _, rfl, by decide⟩

/-- A value starts where white space has been skipped. -/
theorem skipWs_value {o : JsonDecodeOptions} {depth : Nat} {before text : Bytes} {v : Json} (hbefore : Blank before)
    (h : Stands o depth (.value v) text) (rest : Bytes) : skipWs (before ++ (text ++ rest)) = text ++ rest := by
  obtain ⟨c, more, rfl, hc⟩ := head_value h
  rw [skipWs_blank hbefore, List.cons_append, skipWs_cons hc.1]

theorem skipWs_key {o : JsonDecodeOptions} {before text key : Bytes} (hbefore : Blank before) (h : Quoted o text key)
    (rest : Bytes) : skipWs (before ++ (text ++ rest)) = text ++ rest := by
  cases h
  rw [skipWs_blank hbefore, List.cons_append, skipWs_cons (by decide)]

/-- What is between brackets does not start with a closing one. -/
theorem head_inner {o : JsonDecodeOptions} {depth : Nat} {phrase : Phrase} {text : Bytes} (h : Stands o depth phrase text)
    (hphrase : ∀ v, phrase ≠ .value v) (rest : Bytes) : ∃ c more, skipWs (text ++ rest) = c :: more ∧ Json.Starts c := by
  cases h with
  | item hbefore h _ =>
    have hskip := skipWs_value hbefore h
    obtain ⟨c, more, rfl, hc⟩ := head_value h
    rw [List.append_assoc, List.append_assoc, hskip]
    exact ⟨c, _, rfl, hc⟩
  | items hbefore h _ _ =>
    have hskip := skipWs_value hbefore h
    obtain ⟨c, more, rfl, hc⟩ := head_value h
    rw [List.append_assoc, List.append_assoc, hskip]
    exact ⟨c, _, rfl, hc⟩
  | member hbefore hkey _ _ _ _ =>
    have hskip := skipWs_key hbefore hkey
    cases hkey
    rw [List.append_assoc, List.append_assoc, hskip]
    exact ⟨34, _, rfl, by decide⟩
  | members hbefore hkey _ _ _ _ _ =>
    have hskip := skipWs_key hbefore hkey
    cases hkey
    rw [List.append_assoc, List.append_assoc, hskip]
    exact ⟨34, _, rfl, by decide⟩
  | _ => exact absurd rfl (hphrase _)

theorem parseNumber_complete {text rest : Bytes} {l : Literal} {v : Json} (h : Numeral text l) (hlength : text.length ≤ 64)
    (hv : Denotes l v) (hrest : Follows rest) : parseNumber (text ++ rest) = .ok (v, rest) := by
  have hdigits : ∀ c ∈ l.integer, isDigit c = true := by
    cases h with
    | mk hinteger => exact hinteger.digit
  have hvalue : numberValue l rest = .ok v := (numberValue_iff hdigits).2 ⟨by rw [length_numeral h]; exact hlength, hv⟩
  unfold parseNumber
  rw [scanNumber_complete h hrest]
  simp only [hvalue]

theorem parseValue_quoted {o : JsonDecodeOptions} {fuel depth : Nat} {text value : Bytes} (hd : depth ≤ o.depthBound)
    (h : Quoted o text value) (rest : Bytes) :
    parseValue o (fuel + 1) depth (text ++ rest) = .ok (.string value, rest) := by
  have hstring := parseString_complete h rest
  cases h
  rw [List.cons_append] at hstring ⊢
  rw [parseValue, if_neg (within hd), if_neg (by decide), if_neg (by decide), if_pos rfl, hstring]

/-- A phrase that is read, with fuel enough and whatever follows it. -/
def Read (o : JsonDecodeOptions) (depth : Nat) (text : Bytes) : Phrase → Prop
  | .value v => ∀ (fuel : Nat) (rest : Bytes), 2 * text.length ≤ fuel → Follows rest →
    parseValue o fuel depth (text ++ rest) = .ok (v, rest)
  | .items items => ∀ (fuel outer : Nat) (read : List Json) (input rest : Bytes), 2 * text.length + 1 ≤ fuel →
    depth = outer + 1 → skipWs input = skipWs (text ++ 93 :: rest) →
    parseItems o fuel outer read input = .ok (.array (read ++ items), rest)
  | .members members => ∀ (fuel outer : Nat) (map : List (Bytes × Json)) (input rest : Bytes), 2 * text.length + 1 ≤ fuel →
    depth = outer + 1 → (members.map Prod.fst).Nodup → (∀ e ∈ members, Assoc.find e.1 map = none) →
    skipWs input = skipWs (text ++ 125 :: rest) →
    parseMembers o fuel outer map input = .ok (.object (memberMap map members), rest)

section Read

variable {o : JsonDecodeOptions} {depth : Nat}

theorem read_array {text : Bytes} {items : List Json} (hd : depth ≤ o.depthBound) (h : Stands o (depth + 1) (.items items) text)
    (hread : Read o (depth + 1) text (.items items)) : Read o depth (91 :: (text ++ [93])) (.value (.array items)) := by
  intro fuel rest hfuel _
  simp only [List.length_cons, List.length_append, List.length_nil] at hfuel
  obtain ⟨fuel, rfl⟩ : ∃ k, fuel = k + 1 := ⟨fuel - 1, by omega⟩
  obtain ⟨c, more, hskip, hc⟩ := head_inner h (fun _ hne => nomatch hne) (93 :: rest)
  have hinner := hread fuel depth [] (c :: more) rest (by omega) rfl (by rw [← hskip, skipWs_idem])
  rw [List.cons_append, List.append_assoc, List.singleton_append, parseValue, if_neg (within hd), if_neg (by decide),
    if_pos rfl, hskip]
  split
  · rename_i heq
    cases heq
    exact absurd rfl hc.2.1
  · exact hinner

theorem read_object {text : Bytes} {members : List (Bytes × Json)} (hd : depth ≤ o.depthBound)
    (h : Stands o (depth + 1) (.members members) text) (hkeys : (members.map Prod.fst).Nodup)
    (hread : Read o (depth + 1) text (.members members)) :
    Read o depth (123 :: (text ++ [125])) (.value (.object (memberMap [] members))) := by
  intro fuel rest hfuel _
  simp only [List.length_cons, List.length_append, List.length_nil] at hfuel
  obtain ⟨fuel, rfl⟩ : ∃ k, fuel = k + 1 := ⟨fuel - 1, by omega⟩
  obtain ⟨c, more, hskip, hc⟩ := head_inner h (fun _ hne => nomatch hne) (125 :: rest)
  have hinner := hread fuel depth [] (c :: more) rest (by omega) rfl hkeys (fun _ _ => rfl) (by rw [← hskip, skipWs_idem])
  rw [List.cons_append, List.append_assoc, List.singleton_append, parseValue, if_neg (within hd), if_pos rfl, hskip]
  split
  · rename_i heq
    cases heq
    exact absurd rfl hc.2.2
  · exact hinner

/-- An item, and the white space behind it. -/
theorem parseItems_step {before text after behind : Bytes} {v : Json} (hbefore : Blank before)
    (h : Stands o depth (.value v) text) (hread : Read o depth text (.value v)) (hafter : Blank after) (fuel : Nat)
    (hfuel : 2 * text.length ≤ fuel) {c : UInt8} (hc : c = 44 ∨ c = 93) {input : Bytes}
    (hinput : skipWs input = skipWs (before ++ (text ++ (after ++ c :: behind)))) :
    parseValue o fuel depth (skipWs input) = .ok (v, after ++ c :: behind) ∧
      skipWs (after ++ c :: behind) = c :: behind := by
  rw [hinput, skipWs_value hbefore h]
  refine ⟨hread fuel _ hfuel (follows_blank hafter (follows_cons (by rcases hc with rfl | rfl <;> decide) _)), ?_⟩
  rw [skipWs_blank hafter, skipWs_cons (by rcases hc with rfl | rfl <;> decide)]

end Read

section Read

variable {o : JsonDecodeOptions} {depth : Nat}

theorem read_item {before text after : Bytes} {v : Json} (hbefore : Blank before) (h : Stands o depth (.value v) text)
    (hread : Read o depth text (.value v)) (hafter : Blank after) :
    Read o depth (before ++ (text ++ after)) (.items [v]) := by
  rintro fuel outer read input rest hfuel rfl hinput
  simp only [List.length_append] at hfuel
  obtain ⟨fuel, rfl⟩ : ∃ k, fuel = k + 1 := ⟨fuel - 1, by omega⟩
  rw [List.append_assoc, List.append_assoc] at hinput
  obtain ⟨hvalue, hbehind⟩ := parseItems_step hbefore h hread hafter fuel (by omega) (.inr rfl) hinput
  rw [parseItems, hvalue]
  simp only [hbehind]

theorem read_items {before text after texts : Bytes} {v : Json} {items : List Json} (hbefore : Blank before)
    (h : Stands o depth (.value v) text) (hread : Read o depth text (.value v)) (hafter : Blank after)
    (hreads : Read o depth texts (.items items)) :
    Read o depth (before ++ (text ++ (after ++ 44 :: texts))) (.items (v :: items)) := by
  rintro fuel outer read input rest hfuel rfl hinput
  simp only [List.length_append, List.length_cons] at hfuel
  obtain ⟨fuel, rfl⟩ : ∃ k, fuel = k + 1 := ⟨fuel - 1, by omega⟩
  rw [List.append_assoc, List.append_assoc, List.append_assoc, List.cons_append] at hinput
  obtain ⟨hvalue, hbehind⟩ := parseItems_step hbefore h hread hafter fuel (by omega) (.inl rfl) hinput
  have hrest := hreads fuel outer (read ++ [v]) (texts ++ 93 :: rest) rest (by omega) rfl rfl
  rw [parseItems, hvalue]
  simp only [hbehind, hrest, List.append_assoc, List.singleton_append]

/-- A member, up to the white space behind it. -/
theorem parseMembers_step {before keyText between behind text after tail key : Bytes} {v : Json} (hbefore : Blank before)
    (hkey : Quoted o keyText key) (hbetween : Blank between) (hbehind : Blank behind)
    (h : Stands o depth (.value v) text) (hread : Read o depth text (.value v)) (hafter : Blank after) (fuel : Nat)
    (hfuel : 2 * text.length ≤ fuel) {c : UInt8} (hc : c = 44 ∨ c = 125) {input : Bytes}
    (hinput : skipWs input =
      skipWs (before ++ (keyText ++ (between ++ 58 :: (behind ++ (text ++ (after ++ c :: tail))))))) :
    parseString o (skipWs input) = .ok (key, between ++ 58 :: (behind ++ (text ++ (after ++ c :: tail)))) ∧
      skipWs (between ++ 58 :: (behind ++ (text ++ (after ++ c :: tail)))) =
        58 :: (behind ++ (text ++ (after ++ c :: tail))) ∧
      parseValue o fuel depth (skipWs (behind ++ (text ++ (after ++ c :: tail)))) = .ok (v, after ++ c :: tail) ∧
      skipWs (after ++ c :: tail) = c :: tail := by
  rw [hinput, skipWs_key hbefore hkey]
  refine ⟨parseString_complete hkey _, by rw [skipWs_blank hbetween, skipWs_cons (by decide)], ?_, ?_⟩
  · rw [skipWs_value hbehind h]
    exact hread fuel _ hfuel (follows_blank hafter (follows_cons (by rcases hc with rfl | rfl <;> decide) _))
  · rw [skipWs_blank hafter, skipWs_cons (by rcases hc with rfl | rfl <;> decide)]

theorem read_member {before keyText between behind text after key : Bytes} {v : Json} (hbefore : Blank before)
    (hkey : Quoted o keyText key) (hbetween : Blank between) (hbehind : Blank behind) (h : Stands o depth (.value v) text)
    (hread : Read o depth text (.value v)) (hafter : Blank after) :
    Read o depth (before ++ (keyText ++ (between ++ 58 :: (behind ++ (text ++ after))))) (.members [(key, v)]) := by
  rintro fuel outer map input rest hfuel rfl - hnew hinput
  simp only [List.length_append, List.length_cons] at hfuel
  obtain ⟨fuel, rfl⟩ : ∃ k, fuel = k + 1 := ⟨fuel - 1, by omega⟩
  simp only [List.append_assoc, List.cons_append] at hinput
  obtain ⟨hstring, hcolon, hvalue, hclose⟩ := parseMembers_step hbefore hkey hbetween hbehind h hread hafter
    fuel (by omega) (.inr rfl) hinput
  have hnone : Assoc.find key map = none := hnew _ List.mem_cons_self
  rw [parseMembers, hstring]
  simp only [hcolon, hvalue, hnone, hclose]
  rfl

theorem read_members {before keyText between behind text after texts key : Bytes} {v : Json}
    {members : List (Bytes × Json)} (hbefore : Blank before) (hkey : Quoted o keyText key) (hbetween : Blank between)
    (hbehind : Blank behind) (h : Stands o depth (.value v) text) (hread : Read o depth text (.value v))
    (hafter : Blank after) (hreads : Read o depth texts (.members members)) :
    Read o depth (before ++ (keyText ++ (between ++ 58 :: (behind ++ (text ++ (after ++ 44 :: texts))))))
      (.members ((key, v) :: members)) := by
  rintro fuel outer map input rest hfuel rfl hkeys hnew hinput
  simp only [List.length_append, List.length_cons] at hfuel
  obtain ⟨fuel, rfl⟩ : ∃ k, fuel = k + 1 := ⟨fuel - 1, by omega⟩
  simp only [List.append_assoc, List.cons_append] at hinput
  obtain ⟨hstring, hcolon, hvalue, hcomma⟩ := parseMembers_step hbefore hkey hbetween hbehind h hread hafter
    fuel (by omega) (.inl rfl) hinput
  have hnone : Assoc.find key map = none := hnew _ List.mem_cons_self
  rw [List.map_cons, List.nodup_cons] at hkeys
  -- the keys to come are still new behind this one
  have hnews : ∀ e ∈ members, Assoc.find e.1 (Assoc.set key v map) = none := by
    intro e he
    have hne : key ≠ e.1 := by
      rintro rfl
      exact hkeys.1 (List.mem_map.2 ⟨e, he, rfl⟩)
    rw [Assoc.find_set_ne hne]
    exact hnew e (List.mem_cons_of_mem _ he)
  have hrest := hreads fuel outer (Assoc.set key v map) (texts ++ 125 :: rest) rest (by omega) rfl hkeys.2 hnews rfl
  rw [parseMembers, hstring]
  simp only [hcolon, hvalue, hnone, hcomma, hrest]
  rfl

/-- Whatever stands for a phrase is read. -/
theorem read_of_stands {phrase : Phrase} {text : Bytes} (h : Stands o depth phrase text) : Read o depth text phrase := by
  induction h with
  | @literal depth text v hd hmem =>
    intro fuel rest hfuel _
    obtain ⟨fuel, rfl⟩ : ∃ k, fuel = k + 1 := by
      refine ⟨fuel - 1, ?_⟩
      obtain ⟨c, more, rfl, -⟩ := head_value (.literal hd hmem)
      rw [List.length_cons] at hfuel
      omega
    rcases mem_literals hmem with ⟨rfl, rfl⟩ | ⟨rfl, rfl⟩ | ⟨rfl, rfl⟩
    · exact parseValue_bool hd true rest
    · exact parseValue_bool hd false rest
    · exact parseValue_null hd rest
  | @string depth text value hd hquoted =>
    intro fuel rest hfuel _
    obtain ⟨fuel, rfl⟩ : ∃ k, fuel = k + 1 := by
      refine ⟨fuel - 1, ?_⟩
      obtain ⟨c, more, rfl, -⟩ := head_value (.string hd hquoted)
      rw [List.length_cons] at hfuel
      omega
    exact parseValue_quoted hd hquoted rest
  | @number depth text l v hd hnumeral hlength hv =>
    intro fuel rest hfuel hrest
    obtain ⟨c, more, rfl, hc⟩ := head_numeral hnumeral
    obtain ⟨fuel, rfl⟩ : ∃ k, fuel = k + 1 := by
      refine ⟨fuel - 1, ?_⟩
      rw [List.length_cons] at hfuel
      omega
    have hparse := parseNumber_complete hnumeral hlength hv hrest
    rw [List.cons_append] at hparse ⊢
    rw [parseValue_number hd hc, hparse]
  | @emptyArray depth blank hd hblank =>
    intro fuel rest hfuel _
    obtain ⟨fuel, rfl⟩ : ∃ k, fuel = k + 1 := ⟨fuel - 1, by rw [List.length_cons] at hfuel; omega⟩
    rw [List.cons_append, List.append_assoc, List.singleton_append, parseValue, if_neg (within hd), if_neg (by decide),
      if_pos rfl, skipWs_blank hblank, skipWs_cons (by decide)]
    rfl
  | array hd h ih => exact read_array hd h ih
  | @emptyObject depth blank hd hblank =>
    intro fuel rest hfuel _
    obtain ⟨fuel, rfl⟩ : ∃ k, fuel = k + 1 := ⟨fuel - 1, by rw [List.length_cons] at hfuel; omega⟩
    rw [List.cons_append, List.append_assoc, List.singleton_append, parseValue, if_neg (within hd), if_pos rfl,
      skipWs_blank hblank, skipWs_cons (by decide)]
    rfl
  | object hd h hkeys ih => exact read_object hd h hkeys ih
  | item hbefore h hafter ih => exact read_item hbefore h ih hafter
  | items hbefore h hafter _ ih ihs => exact read_items hbefore h ih hafter ihs
  | member hbefore hkey hbetween hbehind h hafter ih => exact read_member hbefore hkey hbetween hbehind h ih hafter
  | members hbefore hkey hbetween hbehind h hafter _ ih ihs =>
    exact read_members hbefore hkey hbetween hbehind h ih hafter ihs

end Read

/-- A text is parsed exactly when it is a value between white space. -/
theorem parseDocument_ok_iff {o : JsonDecodeOptions} {text : Bytes} {v : Json} : parseDocument o text = .ok v ↔
    (∃ before body after, text = before ++ (body ++ after) ∧ Blank before ∧ Blank after ∧ Stands o 0 (.value v) body) ∧
      (o.requireObject = true → v.isObject = true) := by
  constructor
  · intro h
    obtain ⟨before, hbefore, hblank⟩ := skipWs_split text
    unfold parseDocument at h
    simp only at h
    split at h
    · cases h
    · split at h
      · cases h
      · rename_i value rest hvalue
        obtain ⟨body, hbody, hstands⟩ := parseValue_sound hvalue
        obtain ⟨after, hafter, hblank'⟩ := skipWs_split rest
        split at h
        · cases h
        · rename_i hend
          rw [ne_eq, not_not] at hend
          split at h
          · cases h
          · rename_i hobject
            cases h
            rw [hend, List.append_nil] at hafter
            refine ⟨⟨before, body, after, by rw [hbefore, hbody, hafter], hblank, hblank', hstands⟩, fun ho => ?_⟩
            rw [ho, Bool.true_and, Bool.not_eq_true', Bool.not_eq_false] at hobject
            exact hobject
  · rintro ⟨⟨before, body, after, rfl, hbefore, hafter, hstands⟩, hobject⟩
    have hskip := skipWs_value hbefore hstands after
    obtain ⟨c, more, hcons, -⟩ := head_value hstands
    have hne : body ++ after ≠ [] := by rw [hcons]; exact List.cons_ne_nil _ _
    have hread := read_of_stands hstands (2 * (before ++ (body ++ after)).length + 1) after
      (by simp only [List.length_append]; omega) (List.append_nil after ▸ follows_blank hafter follows_nil)
    have hend : skipWs after = [] := by
      have hskip := skipWs_blank hafter []
      rwa [List.append_nil] at hskip
    unfold parseDocument
    simp only [hskip, if_neg hne, hread, hend, ne_eq, not_true_eq_false, if_false]
    rw [if_neg]
    rw [Bool.and_eq_true, Bool.not_eq_true']
    rintro ⟨ho, hv⟩
    rw [hobject ho] at hv
    cases hv

end Parser

/-- The decoder accepts exactly the documents within its bounds, each as the value it denotes. -/
theorem jsonDecode_ok_iff (o : JsonDecodeOptions) (text : Bytes) (v : Json) :
    jsonDecode text o = .ok v ↔ Grammar.Document o text v := by
  unfold jsonDecode
  constructor
  · intro h
    split at h
    · cases h
    · rename_i hsize
      split at h
      · cases h
      · rename_i value hparse
        cases h
        obtain ⟨hcontent, hobject⟩ := Parser.parseDocument_ok_iff.1 hparse
        exact ⟨not_lt.1 hsize, hcontent, hobject⟩
  · rintro ⟨hsize, hcontent, hobject⟩
    rw [if_neg (not_lt.2 hsize), Parser.parseDocument_ok_iff.2 ⟨hcontent, hobject⟩]

end Wnc
