import Gherkin.Registry

/-!
The dialects every registry can start from: English, French, German and Spanish.
-/

namespace Gherkin

namespace Dialect

def english : Dialect where
  name := "English".toList
  native := "English".toList
  feature := ["Feature", "Business Need", "Ability"].map String.toList
  rule := ["Rule"].map String.toList
  background := ["Background"].map String.toList
  scenario := ["Example", "Scenario"].map String.toList
  scenarioOutline := ["Scenario Outline", "Scenario Template"].map String.toList
  examples := ["Examples", "Scenarios"].map String.toList
  given := ["Given "].map String.toList
  when := ["When "].map String.toList
  «then» := ["Then "].map String.toList
  and := ["And "].map String.toList
  but := ["But "].map String.toList

def french : Dialect where
  name := "French".toList
  native := "français".toList
  feature := ["Fonctionnalité"].map String.toList
  rule := ["Règle"].map String.toList
  background := ["Contexte"].map String.toList
  scenario := ["Exemple", "Scénario"].map String.toList
  scenarioOutline := ["Plan du scénario", "Plan du Scénario"].map String.toList
  examples := ["Exemples"].map String.toList
  given :=
    ["Soit ", "Sachant que ", "Sachant ", "Etant donné que ", "Etant donné ", "Étant donné que ",
      "Étant donné "].map String.toList
  when := ["Quand ", "Lorsque "].map String.toList
  «then» := ["Alors ", "Donc "].map String.toList
  and := ["Et que ", "Et "].map String.toList
  but := ["Mais que ", "Mais "].map String.toList

def german : Dialect where
  name := "German".toList
  native := "Deutsch".toList
  feature := ["Funktionalität", "Funktion"].map String.toList
  rule := ["Rule", "Regel"].map String.toList
  background := ["Grundlage", "Hintergrund", "Voraussetzungen", "Vorbedingungen"].map String.toList
  scenario := ["Beispiel", "Szenario"].map String.toList
  scenarioOutline := ["Szenariogrundriss", "Szenarien"].map String.toList
  examples := ["Beispiele"].map String.toList
  given := ["Angenommen ", "Gegeben sei ", "Gegeben seien "].map String.toList
  when := ["Wenn "].map String.toList
  «then» := ["Dann "].map String.toList
  and := ["Und "].map String.toList
  but := ["Aber "].map String.toList

def spanish : Dialect where
  name := "Spanish".toList
  native := "español".toList
  feature := ["Característica", "Necesidad del negocio", "Requisito"].map String.toList
  rule := ["Regla", "Regla de negocio"].map String.toList
  background := ["Antecedentes"].map String.toList
  scenario := ["Ejemplo", "Escenario"].map String.toList
  scenarioOutline := ["Esquema del escenario"].map String.toList
  examples := ["Ejemplos"].map String.toList
  given := ["Dado ", "Dada ", "Dados ", "Dadas "].map String.toList
  when := ["Cuando "].map String.toList
  «then» := ["Entonces "].map String.toList
  and := ["Y ", "E "].map String.toList
  but := ["Pero "].map String.toList

theorem wellFormed_english : english.WellFormed :=
  wellFormed_of_normal english (by decide) (by decide)

theorem wellFormed_french : french.WellFormed :=
  wellFormed_of_normal french (by decide) (by decide)

theorem wellFormed_german : german.WellFormed :=
  wellFormed_of_normal german (by decide) (by decide)

theorem wellFormed_spanish : spanish.WellFormed :=
  wellFormed_of_normal spanish (by decide) (by decide)

end Dialect

def defaultLanguage : Text :=
  "en".toList

namespace Registry

def builtin : Registry :=
  (((empty.put "de".toList .german Dialect.wellFormed_german).put
    defaultLanguage .english Dialect.wellFormed_english).put
    "es".toList .spanish Dialect.wellFormed_spanish).put
    "fr".toList .french Dialect.wellFormed_french

/-- The registry's own English, or the built-in one. -/
def english (registry : Registry) : Dialect :=
  (registry.find? defaultLanguage).getD .english

theorem find?_builtin_default : builtin.find? defaultLanguage = some .english := by
  decide

end Registry

end Gherkin
