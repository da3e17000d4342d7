import SparqlAlgebra.Dataset.Basic

/-!
Datasets that are written down as documents and read again. A document keeps the named graphs under
the texts of their names and takes each text for an IRI: of the names with the same text the last one
hands on its graph, and only IRIs come back as names.
-/

namespace SparqlAlgebra

theorem Term.eq_iri_of_isIri {t : Term} (h : t.isIri = true) : t = .iri t.lexical := by
  cases t with
  | iri value => rfl
  | blank label => cases h
  | literal lit => cases h

namespace Dataset

theorem mem_names_ofDocument {doc : DatasetDocument} {name : Term} :
    name ∈ (ofDocument doc).names ↔ ∃ text ∈ doc.named.keys, name = .iri text :=
  doc.named.mem_keys_ofList_map Term.iri SortedSet.ofList

theorem get?_named_ofDocument {doc : DatasetDocument} {text : String} (h : text ∈ doc.named.keys) :
    (ofDocument doc).named.get? (.iri text) = (doc.named.get? text).map SortedSet.ofList :=
  doc.named.get?_ofList_map Term.iri SortedSet.ofList h fun _ _ e => .inl (Term.iri.inj e)

variable (d : Dataset)

theorem mem_keys_toDocument {text : String} :
    text ∈ d.toDocument.named.keys ↔ ∃ n ∈ d.names, text = n.lexical :=
  d.named.mem_keys_ofList_map Term.lexical SortedSet.toList

theorem get?_named_toDocument {n : Term} (hn : n ∈ d.names)
    (h : ∀ m ∈ d.names, m.lexical = n.lexical → m = n ∨ compare m n = .lt) :
    d.toDocument.named.get? n.lexical = (d.named.get? n).map SortedSet.toList :=
  d.named.get?_ofList_map Term.lexical SortedSet.toList hn h

/-- The dataset that comes back after it was written down. -/
def reloaded : Dataset := ofDocument d.toDocument

theorem default_reloaded : d.reloaded.default = d.default :=
  SortedSet.ofList_toList d.default

theorem mem_names_reloaded {name : Term} :
    name ∈ d.reloaded.names ↔ ∃ n ∈ d.names, name = .iri n.lexical := by
  rw [reloaded, mem_names_ofDocument]
  constructor
  · rintro ⟨text, htext, rfl⟩
    obtain ⟨n, hn, rfl⟩ := (mem_keys_toDocument d).1 htext
    exact ⟨n, hn, rfl⟩
  · rintro ⟨n, hn, rfl⟩
    exact ⟨n.lexical, (mem_keys_toDocument d).2 ⟨n, hn, rfl⟩, rfl⟩

theorem get?_named_reloaded {n : Term} (hn : n ∈ d.names)
    (h : ∀ m ∈ d.names, m.lexical = n.lexical → m = n ∨ compare m n = .lt) :
    d.reloaded.named.get? (.iri n.lexical) = d.named.get? n := by
  have htriples : SortedSet.ofList ∘ SortedSet.toList = (id : Graph → Graph) :=
    funext SortedSet.ofList_toList
  have htext : n.lexical ∈ d.toDocument.named.keys := (mem_keys_toDocument d).2 ⟨n, hn, rfl⟩
  rw [reloaded, get?_named_ofDocument htext, get?_named_toDocument d hn h, Option.map_map, htriples,
    Option.map_id_fun, id]

theorem reloaded_eq_iff : d.reloaded = d ↔ ∀ n ∈ d.names, n.isIri = true := by
  constructor
  · intro h n hn
    have hn : n ∈ d.reloaded.names := by rwa [h]
    obtain ⟨m, -, rfl⟩ := d.mem_names_reloaded.1 hn
    rfl
  · intro h
    have hnamed : d.reloaded.named = d.named := by
      ext name : 1
      by_cases hn : name ∈ d.names
      · -- Two IRIs with the same text are the same name.
        have hsame : ∀ m ∈ d.names, m.lexical = name.lexical → m = name := fun m hm e => by
          rw [Term.eq_iri_of_isIri (h m hm), Term.eq_iri_of_isIri (h name hn), e]
        have hget := d.get?_named_reloaded hn fun m hm e => .inl (hsame m hm e)
        rwa [← Term.eq_iri_of_isIri (h name hn)] at hget
      · have hnew : name ∉ d.reloaded.names := by
          rw [mem_names_reloaded]
          rintro ⟨n, hmem, rfl⟩
          rw [← Term.eq_iri_of_isIri (h n hmem)] at hn
          exact hn hmem
        rw [SortedMap.get?_eq_none_iff.2 hn, SortedMap.get?_eq_none_iff.2 hnew]
    show Dataset.mk d.reloaded.default d.reloaded.named = d
    rw [default_reloaded, hnamed]

/-- A dataset that is written down and read again has its default graph again. Its names are the IRIs
with the texts of the names before, and under each of them stands the graph of the last name with the
text; the graphs of the other names with that text are lost, that of an IRI among them if a blank node
or a literal has its text. All of the dataset comes back if and only if its names are IRIs. -/
theorem reloaded_keeps :
    d.reloaded.default = d.default ∧
      (∀ name, name ∈ d.reloaded.names ↔ ∃ n ∈ d.names, name = .iri n.lexical) ∧
      (∀ n ∈ d.names, (∀ m ∈ d.names, m.lexical = n.lexical → m = n ∨ compare m n = .lt) →
        d.reloaded.named.get? (.iri n.lexical) = d.named.get? n) ∧
      (d.reloaded = d ↔ ∀ n ∈ d.names, n.isIri = true) :=
  ⟨d.default_reloaded, fun _ => d.mem_names_reloaded, fun _ => d.get?_named_reloaded,
    d.reloaded_eq_iff⟩

/-- A blank node hands on its graph, although an IRI has the same text. -/
theorem reloaded_keeps_blank :
    let d := (({} : Dataset).addNamedTriple (.iri "g") ⟨.iri "a", .iri "p", .iri "b"⟩).addNamedTriple
      (.blank "g") ⟨.iri "a", .iri "p", .iri "c"⟩
    .blank "g" ∈ d.names ∧
      (∀ m ∈ d.names, m.lexical = Term.lexical (.blank "g") →
        m = .blank "g" ∨ compare m (.blank "g") = .lt) ∧
      d.reloaded.named.get? (.iri "g") = d.named.get? (.blank "g") := by
  intro d
  have hmem : .blank "g" ∈ d.names := by decide
  have hlast : ∀ m ∈ d.names, m.lexical = Term.lexical (.blank "g") →
      m = .blank "g" ∨ compare m (.blank "g") = .lt := by decide
  obtain ⟨-, -, hgraph, -⟩ := reloaded_keeps d
  exact ⟨hmem, hlast, hgraph (.blank "g") hmem hlast⟩

/-- An IRI and a blank node with the same text: one of the two graphs is lost. -/
theorem reloaded_shared :
    let d := (({} : Dataset).addNamedTriple (.iri "g") ⟨.iri "a", .iri "p", .iri "b"⟩).addNamedTriple
      (.blank "g") ⟨.iri "a", .iri "p", .iri "c"⟩
    d.names = [.iri "g", .blank "g"] ∧ d.reloaded.names = [.iri "g"] ∧
      d.reloaded.named.get? (.iri "g") ≠ d.named.get? (.iri "g") := by
  decide

end Dataset

end SparqlAlgebra
