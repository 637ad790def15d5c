import TestMeasures.Main
import TestMeasures.Proofs.LanguageRun
import TestMeasures.Proofs.TestAccounts
import TestMeasures.Proofs.TestDefinitions
import TestMeasures.Proofs.ResultPlacement
import TestMeasures.Proofs.TextBytes
import TestMeasures.Proofs.WrittenDocument
import TestMeasures.Proofs.WrittenTags
import TestMeasures.Proofs.ReaderRoundTrip
import TestMeasures.Proofs.ListedTests
import TestMeasures.Proofs.DialectAgreement
import TestMeasures.Proofs.WrittenReports
import TestMeasures.Proofs.DocumentTree
import TestMeasures.Proofs.EnclosedDefinitions
import TestMeasures.Proofs.AssemblyTree
import TestMeasures.Proofs.DocumentFront
import TestMeasures.Proofs.FirstFault
import TestMeasures.Proofs.RegularFiles
import TestMeasures.Proofs.WrittenSummary
import TestMeasures.Proofs.LanguageIsolation
import TestMeasures.Proofs.BalancedTags
import TestMeasures.Proofs.MovedTree
import TestMeasures.Proofs.SettingOrigins
import TestMeasures.Proofs.MovedReports
import TestMeasures.Proofs.MovedConfig
import TestMeasures.Proofs.Relocation
import TestMeasures.Proofs.ImportEffect
import TestMeasures.Proofs.RoutedRecords
import TestMeasures.Proofs.DecimalSeconds
import TestMeasures.Proofs.WholePatterns
import TestMeasures.Proofs.ClockTexts
import TestMeasures.Proofs.OpenElements
import TestMeasures.Proofs.RenamedTests
import TestMeasures.Proofs.KeptSettings
