import OsHomeworks.StableQueue
import OsHomeworks.Runs
import OsHomeworks.CellArray
import OsHomeworks.CallLog
import OsHomeworks.AccessTrace
import OsHomeworks.SchedulerModel
import OsHomeworks.SchedulerQueue
import OsHomeworks.SchedulerStorage
import OsHomeworks.SchedulerInvariant
import OsHomeworks.SchedulerCalls
import OsHomeworks.SchedulerSafety
import OsHomeworks.SchedulerRecursion
import OsHomeworks.SchedulerRoundRobin
import OsHomeworks.SchedulerEvents
import OsHomeworks.SchedulerCharging
import OsHomeworks.SchedulerOwnership
import OsHomeworks.SchedulerSteps
import OsHomeworks.SchedulerUniprocessor
import OsHomeworks.SchedulerBalance
import OsHomeworks.SchedulerAtomicity
import OsHomeworks.SchedulerShutdown
import OsHomeworks.FirstMatch
import OsHomeworks.LoaderParser
import OsHomeworks.LoaderFault
import OsHomeworks.LoaderMemory
import OsHomeworks.LoaderImage
import OsHomeworks.LoaderTable
import OsHomeworks.LoaderHeaders
import OsHomeworks.ServerModel
import OsHomeworks.ServerCalls
import OsHomeworks.ServerFraming
import OsHomeworks.ServerSegmentation
import OsHomeworks.ServerMainLoop
import OsHomeworks.ServerDescriptors
import OsHomeworks.ServerDynamic
import OsHomeworks.Tokens
import OsHomeworks.ServerPaths
import OsHomeworks.ServerBuffers
import OsHomeworks.ServerStatic
import OsHomeworks.ServerStatus
import OsHomeworks.ServerFailures
import OsHomeworks.HttpParser
import OsHomeworks.HttpParserTurns
import OsHomeworks.HttpParserBodies
import OsHomeworks.HttpParserProtocol
import OsHomeworks.HttpParserStreams
import OsHomeworks.HttpParserWords
import OsHomeworks.ServerRequests
