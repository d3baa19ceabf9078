import HexConfig.Proofs.Conversion
import HexConfig.Proofs.Reader.Veto

/-!
# What limits do to a conversion

A limit stops a conversion or leaves it alone (`compile_vetoed`), and where it stops one that would go
through is known exactly (`compile_thresholds`): a program needs the deepest nesting of any of its declarations
(`Program.depthNeeded_le_iff`), and the most values that are ever counted at once while they are read in order
(`Program.nodesNeeded_le_iff`).
-/

namespace HexConfig

open Reader

/-! ## Vetoes -/

variable {settings : Settings} {source : String} {doc : Document}

/-- A conversion under lower limits: as under the others, or stopped by a limit. -/
theorem compile_vetoed {limits limits' : Limits} (hle : limits.AtMost limits') (escape : Bool)
    (source : String) :
    compile ⟨limits, escape⟩ source = compile ⟨limits', escape⟩ source ∨
      ∃ diagnostic, compile ⟨limits, escape⟩ source = .error diagnostic ∧
        limits.Veto diagnostic.fault := by
  rcases State.vetoed_feed hle (.start [] .zero) (Tokens.ofText source).list with
    hfeed | ⟨stop, hfeed, hveto⟩
  · refine .inl ?_
    rw [compile_eq, compile_eq, hfeed]
  · refine .inr ⟨stop.diagnostic, ?_, hveto⟩
    exact compile_of_feed_error hfeed

/-- No digits make too many values. -/
theorem decode_ne_tooManyNodes {digits : String} {n : Nat} :
    State.decode digits ≠ .error (.tooManyNodes n) := by
  unfold State.decode
  split
  · nofun
  · split
    · nofun
    · nofun

/-- There are too many values only for a limit below the greatest number. -/
theorem maxNodes_lt_of_tooManyNodes {diagnostic : Diagnostic} {k : Nat}
    (h : compile settings source = .error diagnostic) (hfault : diagnostic.fault = .tooManyNodes k) :
    settings.maxNodes < Limits.greatest := by
  rw [compile_eq] at h
  split at h
  · next stop hfeed =>
    cases h
    obtain ⟨_, t, _, s, -, -, ⟨expected, -, rfl⟩ | ⟨hstep, -⟩⟩ := State.stop_of_feed hfeed
    · exact nomatch hfault
    · generalize stop.diagnostic = d, stop.state = s' at hstep hfault
      cases State.failure_of_step hstep with
      | tooDeep => exact nomatch hfault
      | tooDeepSpliced => exact nomatch hfault
      | tooMany _ hnodes => exact Nat.lt_of_lt_of_le hnodes (sumUpTo_le_greatest _ _)
      | number hdecode =>
        cases hfault
        exact absurd hdecode decode_ne_tooManyNodes
      | unknown => exact nomatch hfault
  · next s hfeed =>
    split at h
    · next hfinish =>
      obtain ⟨_, -, rfl⟩ := Option.map_eq_some_iff.mp hfinish
      cases h
      exact nomatch hfault
    · exact nomatch h

/-! ## Thresholds -/

variable {limits : Limits} {nest cost : Nat}

/-- Below the greatest number, the limits allow what is no more than they are. -/
theorem allow_zero_iff (hdepth : limits.maxDepth < Limits.greatest)
    (hnodes : limits.maxNodes < Limits.greatest) :
    limits.Allow .zero nest cost ↔ nest ≤ limits.maxDepth ∧ cost ≤ limits.maxNodes := by
  show min (0 + nest) Limits.greatest ≤ _ ∧ min (0 + cost) Limits.greatest ≤ _ ↔ _
  omega

/-- Below the greatest number, what exceeds a limit is really more than it. -/
theorem lt_of_exceeded_zero {fault : Fault} (hdepth : limits.maxDepth < Limits.greatest)
    (hnodes : limits.maxNodes < Limits.greatest) (h : limits.Exceeded .zero nest cost fault) :
    fault = .nestingTooDeep limits.maxDepth ∧ limits.maxDepth < nest ∨
      fault = .tooManyNodes limits.maxNodes ∧ limits.maxNodes < cost := by
  rcases h with ⟨hfault, hlt⟩ | ⟨hfault, hlt⟩
  · have hlt : limits.maxDepth < min (0 + nest) Limits.greatest := hlt
    exact .inl ⟨hfault, by omega⟩
  · have hlt : limits.maxNodes < min (0 + cost) Limits.greatest := hlt
    exact .inr ⟨hfault, by omega⟩

/-- What limits do to a conversion, in four parts.

A text that is read to a document under the greatest limits is read to the same document under any
limits that its program, with references written out, keeps to, and is stopped otherwise by a limit
that the program does not keep to. No text has too many values for the greatest limit on them. A text
that is not read under the greatest limits is at fault in the same way under any others, or is stopped
by one of them. A text that is read stays read, to the same document, when limits are raised. -/
theorem compile_thresholds (source : String) (escape : Bool)
    (hsize : source.utf8ByteSize < Integer.signedBound) :
    (∀ doc, compile ⟨.unlimited, escape⟩ source = .ok doc →
      ∃ p q : Program, (Tokens.ofText source).words = p.words ∧ p.expand? = some q ∧
        ∀ d n, d < Limits.greatest → n < Limits.greatest →
          (q.depthNeeded ≤ d ∧ q.nodesNeeded ≤ n → compile ⟨⟨d, n⟩, escape⟩ source = .ok doc) ∧
          (¬ (q.depthNeeded ≤ d ∧ q.nodesNeeded ≤ n) →
            ∃ diagnostic, compile ⟨⟨d, n⟩, escape⟩ source = .error diagnostic ∧
              (diagnostic.fault = .nestingTooDeep d ∧ d < q.depthNeeded ∨
                diagnostic.fault = .tooManyNodes n ∧ n < q.nodesNeeded))) ∧
    (∀ d diagnostic k, compile ⟨⟨d, Limits.greatest⟩, escape⟩ source = .error diagnostic →
      diagnostic.fault ≠ .tooManyNodes k) ∧
    (∀ diagnostic, compile ⟨.unlimited, escape⟩ source = .error diagnostic →
      ∀ d n, d ≤ Limits.greatest → n ≤ Limits.greatest →
        ∃ diagnostic', compile ⟨⟨d, n⟩, escape⟩ source = .error diagnostic' ∧
          (diagnostic' = diagnostic ∨ diagnostic'.fault = .nestingTooDeep d ∨
            diagnostic'.fault = .tooManyNodes n)) ∧
    ∀ d n d' n' doc, d ≤ d' → n ≤ n' → compile ⟨⟨d, n⟩, escape⟩ source = .ok doc →
      compile ⟨⟨d', n'⟩, escape⟩ source = .ok doc := by
  refine ⟨?_, ?_, ?_, ?_⟩
  · intro doc h
    obtain ⟨p, hwords, hmeaning⟩ := meaning?_of_compile h
    obtain ⟨q, hexpand, hdoc⟩ := Option.bind_eq_some_iff.mp hmeaning
    refine ⟨p, q, hwords, hexpand, ?_⟩
    intro d n hd hn
    have hallows : Limits.Allow ⟨d, n⟩ .zero q.depthNeeded q.nodesNeeded ↔
        q.depthNeeded ≤ d ∧ q.nodesNeeded ≤ n := allow_zero_iff hd hn
    rw [← hallows]
    rcases compile_of_expand? ⟨⟨d, n⟩, escape⟩ hsize hwords hexpand hdoc with
      ⟨hallow, hok⟩ | ⟨diagnostic, herror, hexceeded⟩
    · exact ⟨fun _ => hok, fun hnot => absurd hallow hnot⟩
    · exact ⟨fun hallow => absurd hallow hexceeded.not_allow,
        fun _ => ⟨diagnostic, herror, lt_of_exceeded_zero hd hn hexceeded⟩⟩
  · intro d diagnostic k h hfault
    exact absurd (maxNodes_lt_of_tooManyNodes h hfault) (Nat.lt_irrefl _)
  · intro diagnostic h d n hd hn
    have hle : Limits.AtMost ⟨d, n⟩ .unlimited := ⟨hd, hn⟩
    rcases compile_vetoed hle escape source with hsame | ⟨diagnostic', herror, hveto⟩
    · exact ⟨diagnostic, hsame.trans h, .inl rfl⟩
    · exact ⟨diagnostic', herror, .inr (hveto.imp_right And.left)⟩
  · intro d n d' n' doc hd hn h
    have hle : Limits.AtMost ⟨d, n⟩ ⟨d', n'⟩ := ⟨hd, hn⟩
    rcases compile_vetoed hle escape source with hsame | ⟨_, herror, -⟩
    · exact hsame.symm.trans h
    · rw [h] at herror
      exact nomatch herror

/-- An instance: a constant and a reference to it need two containers and three values. With a limit
of two values the constant itself is stopped. -/
theorem compile_thresholds_spliced :
    "global B = #(#() 0x1) a = ?[B]".utf8ByteSize < Integer.signedBound ∧
      compile ⟨⟨2, 3⟩, false⟩ "global B = #(#() 0x1) a = ?[B]" =
        .ok (Document.empty.insert "a" (.sequence [.sequence [], .number 1])) ∧
      ∃ diagnostic, compile ⟨⟨2, 2⟩, false⟩ "global B = #(#() 0x1) a = ?[B]" = .error diagnostic ∧
        diagnostic.fault = .tooManyNodes 2 := by
  have hsize : "global B = #(#() 0x1) a = ?[B]".utf8ByteSize < Integer.signedBound := by decide
  have hcompile : compile ⟨.unlimited, false⟩ "global B = #(#() 0x1) a = ?[B]" =
      .ok (Document.empty.insert "a" (.sequence [.sequence [], .number 1])) := by decide +kernel
  have hwords : (Tokens.ofText "global B = #(#() 0x1) a = ?[B]").words = Program.words
      [.global "B" (.array [.array [], .number "1"]), .entry "a" (.reference "B")] := by
    decide +kernel
  obtain ⟨p, q, hp, hq, hlimits⟩ := (compile_thresholds _ false hsize).1 _ hcompile
  obtain rfl := Program.words_injective (hwords.symm.trans hp)
  cases hq
  obtain ⟨hok, -⟩ := hlimits 2 3 (by decide) (by decide)
  obtain ⟨-, herror⟩ := hlimits 2 2 (by decide) (by decide)
  obtain ⟨diagnostic, hstop, hfault⟩ := herror (by decide)
  exact ⟨hsize, hok (by decide), diagnostic, hstop,
    (hfault.resolve_left fun ⟨_, h⟩ => absurd h (by decide)).1⟩

end HexConfig
